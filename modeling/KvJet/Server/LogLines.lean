import KvJet.Raft.Lines
import KvJet.Server.Command

/-!
# The lines of the log file

`loadFromDisk` is to read the entries that `rewriteDisk` has written, or `appendToDisk` and then
`flushDisk`. A line ends at its first newline, so no command that is read has a newline in it,
while keys and values may: such a command comes back as another one, as several, or as a line
that does not start with a number, and then the constructor throws.

Without newlines a log that was written anew comes back. What was appended does if it is all in
the file, but for the newline at the end: the last `flushDisk` returns at once where it finds
`diskBuf_` empty, whatever the stream still holds (`lines_read_back_iff`).
-/

namespace KvJet
namespace Raft

/-! ## What is read -/

/-- Nothing that is read has a newline in it. -/
theorem lf_not_mem_fileCommands {file cmd : Bytes} (h : cmd ∈ fileCommands file) : lf ∉ cmd := by
  obtain ⟨l, hl, rfl⟩ := List.mem_map.mp h
  have hline : l ∈ file.splitOn lf := (List.mem_filter.mp hl).1
  rw [List.splitOn_eq_splitOnP] at hline
  intro hmem
  have hlf : lf ∈ l := (List.dropWhile_suffix _).subset (List.mem_of_mem_drop hmem)
  exact absurd (Server.mem_splitOnP hline lf hlf) (by simp)

/-- A line is one entry at most. -/
theorem length_fileCommands_le {l : Bytes} (h : lf ∉ l) : (fileCommands l).length ≤ 1 := by
  by_cases hspace : space ∈ l
  · rw [fileCommands_of_space h hspace]
    exact Nat.le_refl 1
  · rw [fileCommands_of_no_space h hspace]
    exact Nat.zero_le 1

theorem fileCommands_line_append {e : LogEntry} (h : lf ∉ e.command) (file : Bytes) :
    fileCommands (line e ++ file) = e.command :: fileCommands file :=
  fileCommands_behind List.not_mem_nil List.not_mem_nil h file

/-- The newline at the end of the file makes no difference. -/
theorem loadFromDisk_newline (file : Bytes) :
    loadFromDisk (file ++ [lf]) = loadFromDisk file := by
  unfold loadFromDisk
  rw [List.splitOn_append_cons_self, List.mapM_append]
  cases (file.splitOn lf).mapM loadLine with
  | error e => rfl
  | ok parts => simp [loadLine, bind, Except.bind, pure, Except.pure]

/-- What comes back is free of newlines. -/
theorem newlineFree_of_loadFromDisk {file : Bytes} {es : List LogEntry}
    (h : loadFromDisk file = .ok es) : ∀ e ∈ es, lf ∉ e.command := by
  intro e he
  have hmem : e.command ∈ fileCommands file := by
    rw [← loadFromDisk_commands h]
    exact List.mem_map_of_mem he
  exact lf_not_mem_fileCommands hmem

/-! ## A file that is cut short -/

/-- Cut off in its line, an entry is not read as itself. -/
theorem whole_of_fileCommands {e : LogEntry} {f cut : Bytes} (hlf : lf ∉ f)
    (hf : f ++ cut = toString e.term ++ space :: e.command)
    (hread : fileCommands f = [e.command]) : cut = [] := by
  have hspace : space ∈ f := by
    by_contra hno
    rw [fileCommands_of_no_space hlf hno] at hread
    exact absurd hread (by simp)
  rw [fileCommands_of_space hlf hspace] at hread
  have hdrop := dropWhile_entry e
  rw [← hf, List.dropWhile_append] at hdrop
  cases hbehind : f.dropWhile (· ≠ space) with
  | nil => exact absurd hspace (dropWhile_space.mp hbehind)
  | cons b command =>
    simp only [hbehind, List.drop_succ_cons, List.drop_zero, List.cons.injEq, and_true] at hread
    simp only [hbehind, List.isEmpty_cons, Bool.false_eq_true, if_false, List.cons_append,
      List.cons.injEq] at hdrop
    have hlengths := congrArg List.length hdrop.2
    rw [hread, List.length_append] at hlengths
    exact List.length_eq_zero_iff.mp (by omega)

/-- Where the lines of `es` are cut and yet all their commands are read, only a newline can be
missing. -/
theorem missing_of_fileCommands : ∀ {es : List LogEntry}, (∀ e ∈ es, lf ∉ e.command) →
    ∀ {f cut : Bytes}, f ++ cut = es.flatMap line → fileCommands f = es.map LogEntry.command →
      cut.length ≤ 1 := by
  intro es
  induction es with
  | nil =>
    intro _ f cut hf _
    rw [(List.append_eq_nil_iff.mp hf).2]
    exact Nat.zero_le _
  | cons e es ih =>
    intro hes f cut hf hread
    have hcmd : lf ∉ e.command := hes e List.mem_cons_self
    have hrest : ∀ e' ∈ es, lf ∉ e'.command := fun e' he' => hes e' (List.mem_cons_of_mem _ he')
    rw [List.flatMap_cons, List.append_eq_append_iff] at hf
    rcases hf with ⟨cut', hline, rfl⟩ | ⟨f', rfl, hf'⟩
    · -- the cut is in the first line or right behind it
      rcases List.eq_nil_or_concat cut' with rfl | ⟨cut', b, rfl⟩
      · rw [List.append_nil] at hline
        rw [← hline, ← List.append_nil (line e), fileCommands_line_append hcmd] at hread
        exact ih hrest rfl (List.cons_eq_cons.mp hread).2
      · rw [line, List.concat_eq_append, ← List.append_assoc] at hline
        obtain ⟨hbody, hb⟩ := List.append_inj' hline rfl
        have hlf : lf ∉ f := fun hmem =>
          lf_not_mem_entry hcmd (hbody ▸ List.mem_append_left _ hmem)
        have hnone : es = [] := by
          have hone := length_fileCommands_le hlf
          rw [hread, List.length_map, List.length_cons] at hone
          exact List.length_eq_zero_iff.mp (by omega)
        rw [hnone] at hread
        rw [whole_of_fileCommands hlf hbody.symm hread, hnone]
        exact Nat.le_refl 1
    · rw [fileCommands_line_append hcmd] at hread
      exact ih hrest hf'.symm (List.cons_eq_cons.mp hread).2

/-- **A file that lacks the end of the lines** is read as the entries exactly if it lacks at most
a newline. -/
theorem loadFromDisk_cut_iff {es : List LogEntry} (h : ∀ e ∈ es, e.Storable) {f cut : Bytes}
    (hf : f ++ cut = es.flatMap line) : loadFromDisk f = .ok es ↔ cut.length ≤ 1 := by
  constructor
  · intro hload
    exact missing_of_fileCommands (fun e he => (h e he).2) hf (loadFromDisk_commands hload).symm
  · intro hcut
    rcases List.eq_nil_or_concat cut with rfl | ⟨cut, b, rfl⟩
    · rw [← List.append_nil f, hf]
      exact loadFromDisk_lines h
    · -- what is missing is the last byte of the last line
      have hcut' : cut = [] := by
        rw [List.length_concat] at hcut
        exact List.length_eq_zero_iff.mp (by omega)
      rw [hcut', List.concat_eq_append, List.nil_append] at hf
      rcases List.eq_nil_or_concat es with rfl | ⟨es', e, rfl⟩
      · exact absurd hf (by simp)
      · have hlast : f ++ [b] = (es'.flatMap line ++ (toString e.term ++ space :: e.command))
            ++ [lf] := by
          rw [hf]
          simp [line]
        obtain ⟨-, hb⟩ := List.append_inj' hlast rfl
        rw [← loadFromDisk_newline, ← hb, hf]
        exact loadFromDisk_lines h

/-! ## The calls -/

namespace Disk

/-- What a flush leaves out of the file. -/
def leftBehind (d : Disk) : Bytes := if d.diskBuf.isEmpty then d.stream else []

theorem flushDisk_file (d : Disk) : d.flushDisk.file ++ d.leftBehind = d.contents := by
  unfold flushDisk leftBehind contents
  split
  · rename_i hempty
    rw [List.isEmpty_iff.mp hempty, List.append_nil]
  · rw [List.append_nil]

end Disk

variable {es : List LogEntry}

theorem loadFromDisk_rewrite_iff (hterms : ∀ e ∈ es, e.term < 2 ^ 64) (d : Disk) :
    loadFromDisk (d.rewriteDisk (sentinel :: es)).file = .ok es ↔ ∀ e ∈ es, lf ∉ e.command :=
  ⟨newlineFree_of_loadFromDisk, fun h => loadFromDisk_lines fun e he => ⟨hterms e he, h e he⟩⟩

theorem loadFromDisk_flush_iff (hterms : ∀ e ∈ es, e.term < 2 ^ 64) {d : Disk}
    (hd : d.contents = es.flatMap line) : loadFromDisk d.flushDisk.file = .ok es ↔
      (∀ e ∈ es, lf ∉ e.command) ∧ (d.diskBuf = [] → d.stream.length ≤ 1) := by
  have hcut : d.leftBehind.length ≤ 1 ↔ (d.diskBuf = [] → d.stream.length ≤ 1) := by
    unfold Disk.leftBehind
    cases d.diskBuf <;> simp
  rw [← hcut]
  constructor
  · intro hload
    have hfree := newlineFree_of_loadFromDisk hload
    have hstorable : ∀ e ∈ es, e.Storable := fun e he => ⟨hterms e he, hfree e he⟩
    exact ⟨hfree, (loadFromDisk_cut_iff hstorable (d.flushDisk_file.trans hd)).mp hload⟩
  · rintro ⟨hfree, hleft⟩
    have hstorable : ∀ e ∈ es, e.Storable := fun e he => ⟨hterms e he, hfree e he⟩
    exact (loadFromDisk_cut_iff hstorable (d.flushDisk_file.trans hd)).mpr hleft

/-- **The lines of any entries are read back as these entries exactly when** no command has a
newline in it and, where they were appended, the last flush finds something in `diskBuf_` or
nothing but the last newline in the stream.

A line is read up to its newline, and cut at its first blank; the number in front has none of
either, so an entry comes back if its command has no newline, and else as something shorter. The
last line needs no newline to be read. What the stream still holds is not in the file, and the last
flush leaves it there if it finds `diskBuf_` empty. -/
theorem lines_read_back_iff (es : List LogEntry) (hterms : ∀ e ∈ es, e.term < 2 ^ 64) :
    (∀ d : Disk, loadFromDisk (d.rewriteDisk (sentinel :: es)).file = .ok es ↔
      ∀ e ∈ es, lf ∉ e.command) ∧
    ∀ (spill : Nat → Nat) (ops : List DiskOp), (∀ log, .rewrite log ∉ ops) →
      ops.filterMap DiskOp.entry? = es →
        (loadFromDisk (Disk.after spill (ops ++ [.flush])).file = .ok es ↔
          (∀ e ∈ es, lf ∉ e.command) ∧
            ((Disk.after spill ops).diskBuf = [] → (Disk.after spill ops).stream.length ≤ 1)) := by
  refine ⟨loadFromDisk_rewrite_iff hterms, fun spill ops hops hes => ?_⟩
  have hcontents : (Disk.after spill ops).contents = _ := Disk.onto_contents spill [] hops
  rw [hes] at hcontents
  rw [Disk.after_append]
  exact loadFromDisk_flush_iff hterms hcontents

/-- Two entries of the largest term, one of them with an empty command. -/
theorem lines_read_back_largest_term :
    let es : List LogEntry := [⟨2 ^ 64 - 1, ascii "SET k v w"⟩, ⟨2 ^ 64 - 1, []⟩]
    loadFromDisk (({} : Disk).rewriteDisk (sentinel :: es)).file = .ok es ∧
      loadFromDisk (Disk.after id (es.map .append ++ [.flush])).file = .ok es := by
  have h := lines_read_back_iff [⟨2 ^ 64 - 1, ascii "SET k v w"⟩, ⟨2 ^ 64 - 1, []⟩] (by simp)
  exact ⟨(h.1 {}).mpr (by decide +kernel),
    (h.2 id _ (by simp) rfl).mpr ⟨by decide +kernel, by decide +kernel⟩⟩

end Raft

namespace Server

open Raft Resp

/-- `SET k` with a value of two lines is proposed as it is; written anew or appended, the second
line starts with no number. -/
theorem two_line_value_throws :
    (Write.set (ascii "k") (.bulkString (some (ascii "a\nx y")))).Sendable ∧
    (Write.set (ascii "k") (.bulkString (some (ascii "a\nx y")))).text
      = .ok (ascii "SET k a\nx y") ∧
    loadFromDisk (({} : Disk).rewriteDisk [sentinel, ⟨1, ascii "SET k a\nx y"⟩]).file
      = .error (.exception "stoull") ∧
    loadFromDisk (Disk.after id [.append ⟨1, ascii "SET k a\nx y"⟩, .flush]).file
      = .error (.exception "stoull") := by
  refine ⟨?_, ?_, ?_, ?_⟩
  · simp [Write.Sendable, RespValue.Wire, ascii, cr]
  · decide +kernel
  · decide +kernel
  · decide +kernel

end Server
end KvJet
