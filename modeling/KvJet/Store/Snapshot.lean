import KvJet.Resp.RoundTrip
import KvJet.Store.Runs
import Mathlib.Data.Fintype.EquivFin

/-!
# Snapshots

`HashTable<RespValue>::writetofile` and `readfromfile`. The file is two `uint32_t`s, the number
of buckets and the number of elements, and then one record for each `OCCUPIED` bucket: its
index, the sizes of its key and of its encoded value, and the two. Tombstones are not written.

So the table that is read back is the written one with its tombstones turned into empty
buckets (`loaded`, `readfromfile_writetofile`), which is the library's `Probing.sweep`. That a
key is still found in it is not a matter of the live entries alone: a key behind a tombstone on
its probe path is lost.

A file is its bytes; opening it and creating its directory are not modelled. A `file.read` that
comes up short leaves the rest of its buffer as it was, so a number it was to fill is
indeterminate.
-/

namespace KvJet
namespace Store
namespace HashTable

open Resp (RespValue RespParser encode)

/-! ## Numbers in the file -/

/-- The bytes of a `uint32_t`, least significant first; the conversion to it wraps. -/
def u32 (n : Nat) : Bytes :=
  [UInt8.ofNat n, UInt8.ofNat (n / 256), UInt8.ofNat (n / 65536), UInt8.ofNat (n / 16777216)]

/-- `file.read` into an uninitialised `uint32_t`. -/
def readU32 : Bytes → Except Fault (Nat × Bytes)
  | a :: b :: c :: d :: file =>
    .ok (a.toNat + 256 * b.toNat + 65536 * c.toNat + 16777216 * d.toNat, file)
  | _ => .error (.undefined "indeterminate value")

theorem readU32_u32 (n : Nat) (file : Bytes) :
    readU32 (u32 n ++ file) = .ok (n % 2 ^ 32, file) := by
  simp only [u32, List.cons_append, List.nil_append, readU32, UInt8.toNat_ofNat', Except.ok.injEq,
    Prod.mk.injEq, and_true]
  omega

/-- `buffer.resize(size); file.read(&buffer[0], size);`. -/
def readString (buffer : Bytes) (size : Nat) (file : Bytes) : Bytes × Bytes :=
  let resized := buffer.take size ++ List.replicate (size - buffer.length) 0
  (file.take size ++ resized.drop file.length, file.drop size)

theorem readString_append (s file : Bytes) : readString [] s.length (s ++ file) = (s, file) := by
  simp [readString]

/-! ## Writing -/

/-- What the body of the loop in `writetofile` writes for bucket `i`. -/
def record (i : Nat) (node : Node RespValue) : Bytes :=
  match node.status with
  | .empty | .deleted => []
  | .occupied =>
    let value := encode node.value
    u32 i ++ u32 node.key.length ++ u32 value.length
      ++ node.key.take (node.key.length % 2 ^ 32) ++ value.take (value.length % 2 ^ 32)

/-- The loop. Its counter is a `uint32_t` and `bucketsz` a `size_t`, so it ends only if the
number of buckets fits the counter; `fuel` bounds the turns. -/
def writeLoop (buckets : List (Node RespValue)) : Nat → Nat → Option Bytes
  | 0, _ => none
  | fuel + 1, i =>
    match buckets[i]? with
    | none => some []
    | some node => (record i node ++ ·) <$> writeLoop buckets fuel ((i + 1) % 2 ^ 32)

/-- `none`: the loop has not ended after `fuel` turns. -/
def writetofile (t : HashTable RespValue) (fuel : Nat) : Option Bytes :=
  (u32 t.bucketsz ++ u32 t.sz ++ ·) <$> writeLoop t.buckets fuel 0

/-! ## Reading -/

/-- The body of the loop in `readfromfile`. -/
def readRecord (t : HashTable RespValue) (file : Bytes) :
    Except Fault (HashTable RespValue × Bytes) := do
  let (idx, file) ← readU32 file
  match t.buckets[idx]? with
  | none => .error (.undefined "bucket out of range")
  | some node =>
    let (keysize, file) ← readU32 file
    let (valuesize, file) ← readU32 file
    let (key, file) := if keysize > 0 then readString node.key keysize file else (node.key, file)
    if valuesize > 0 then
      let (value, file) := readString [] valuesize file
      let parser ← ({} : RespParser).append value
      match parser.getResult.1 with
      | none => .error (.exception "Parser has no result!!!!!")
      | some v => return ({ t with buckets := t.buckets.set idx ⟨key, v, .occupied⟩ }, file)
    else return ({ t with buckets := t.buckets.set idx ⟨key, node.value, .occupied⟩ }, file)

def readRecords : Nat → HashTable RespValue → Bytes → Except Fault (HashTable RespValue × Bytes)
  | 0, t, file => .ok (t, file)
  | n + 1, t, file => do
    let (t, file) ← readRecord t file
    readRecords n t file

/-- Everything in the table it is called on is replaced. -/
def readfromfile (file : Bytes) : Except Fault (HashTable RespValue) := do
  let (readbucketsz, file) ← readU32 file
  let (validsz, file) ← readU32 file
  let (t, _) ← readRecords validsz ⟨List.replicate readbucketsz blank, validsz⟩ file
  return t

/-! ## What is written

The loop counts in 32 bits and compares with a `size_t`, so it only ends if the number of buckets
fits. -/

/-- The records of the buckets from number `i` on. -/
def records (i : Nat) : List (Node RespValue) → Bytes
  | [] => []
  | node :: nodes => record i node ++ records (i + 1) nodes

theorem writeLoop_eq {buckets : List (Node RespValue)} (hlt : buckets.length < 2 ^ 32) :
    ∀ (fuel : Nat) (done rest : List (Node RespValue)), buckets = done ++ rest →
      writeLoop buckets fuel done.length
        = if rest.length < fuel then some (records done.length rest) else none := by
  intro fuel
  induction fuel with
  | zero =>
    intro done rest _
    simp [writeLoop]
  | succ fuel ih =>
    intro done rest hsplit
    cases rest with
    | nil => simp [writeLoop, hsplit, records]
    | cons node rest =>
      have hlen : buckets.length = done.length + rest.length + 1 := by
        rw [hsplit, List.length_append, List.length_cons]
        omega
      have hnode : buckets[done.length]? = some node := by simp [hsplit]
      have hnext : (done.length + 1) % 2 ^ 32 = (done ++ [node]).length := by
        rw [Nat.mod_eq_of_lt (by omega), List.length_append, List.length_singleton]
      rw [writeLoop, hnode]
      simp only [hnext, ih (done ++ [node]) rest (by simp [hsplit])]
      by_cases hf : rest.length < fuel
      · simp [hf, records]
      · simp [hf]

/-- With `2^32` buckets or more the counter never gets to the end. -/
theorem writeLoop_diverges {buckets : List (Node RespValue)} (hge : 2 ^ 32 ≤ buckets.length) :
    ∀ (fuel i : Nat), i < 2 ^ 32 → writeLoop buckets fuel i = none := by
  intro fuel
  induction fuel with
  | zero => intro i _; rfl
  | succ fuel ih =>
    intro i hi
    have hnode : buckets[i]? = some (buckets[i]) := List.getElem?_eq_getElem (by omega)
    have hnext := ih ((i + 1) % 2 ^ 32) (Nat.mod_lt _ (by decide))
    rw [writeLoop, hnode]
    simp only [hnext]
    rfl

/-! ## What is read back

The reader goes by the number of records in the head of the file, so the records have to be exactly
as many as the table has counted. -/

/-- A bucket after a write and a read. -/
def kept (node : Node RespValue) : Node RespValue :=
  if node.status = .occupied then node else blank

/-- The table after a write and a read. -/
def loaded (t : HashTable RespValue) : HashTable RespValue := ⟨t.buckets.map kept, t.sz⟩

/-- A node whose key and value the file can hold. -/
def Fits (key : Bytes) (value : RespValue) : Prop :=
  key.length < 2 ^ 32 ∧ value.Wire ∧ (encode value).length < 2 ^ 32

theorem parse_encode {v : RespValue} (hw : v.Wire) :
    ∃ parser, ({} : RespParser).append (encode v) = .ok parser ∧ parser.getResult.1 = some v := by
  refine ⟨Resp.idle [] ([] ++ [v]), ?_, rfl⟩
  have h := Resp.append_encodings [v] (by simpa using hw) []
  rw [List.flatMap_singleton] at h
  exact h

/-- One record, read into a bucket that is still blank. -/
theorem readRecord_record {t : HashTable RespValue} {i : Nat} {k : Bytes} {v : RespValue}
    (hi : i < 2 ^ 32) (hblank : t.buckets[i]? = some blank) (hfits : Fits k v) (file : Bytes) :
    readRecord t (record i ⟨k, v, .occupied⟩ ++ file)
      = .ok ({ t with buckets := t.buckets.set i ⟨k, v, .occupied⟩ }, file) := by
  obtain ⟨hk, hw, hv⟩ := hfits
  obtain ⟨parser, hparse, hresult⟩ := parse_encode hw
  have hpos : 0 < (encode v).length := List.length_pos_iff.mpr (Resp.encode_ne_nil v)
  simp only [readRecord, record, List.append_assoc, readU32_u32, Nat.mod_eq_of_lt hi,
    Nat.mod_eq_of_lt hk, Nat.mod_eq_of_lt hv, List.take_length, bind, Except.bind, hblank]
  rcases Nat.eq_zero_or_pos k.length with hk0 | hk0
  · have : k = [] := List.eq_nil_of_length_eq_zero hk0
    subst this
    simp only [blank, List.length_nil, gt_iff_lt, Nat.lt_irrefl, if_false, if_pos hpos,
      List.nil_append, readString_append, hparse, hresult]
    rfl
  · simp only [blank, if_pos hk0, if_pos hpos, readString_append, hparse, hresult]
    rfl

/-- **The read loop.** When the buckets `done` have been read and `rest` have not, the first
ones are as they will be and the others blank.

A record has its own index in it, and the buckets between two records stay blank, so the number of
records that are left is that of the occupied buckets in `rest`. -/
theorem readRecords_records (sz : Nat) :
    ∀ (rest done : List (Node RespValue)), done.length + rest.length < 2 ^ 32 →
      (∀ node ∈ rest, node.status = .occupied → Fits node.key node.value) →
      readRecords (occupancy rest)
          ⟨done.map kept ++ List.replicate rest.length blank, sz⟩ (records done.length rest)
        = .ok (⟨(done ++ rest).map kept, sz⟩, []) := by
  intro rest
  induction rest with
  | nil =>
    intro done _ _
    simp [occupancy, readRecords, records]
  | cons node rest ih =>
    intro done hlen hfits
    rw [List.length_cons] at hlen
    have hstep := ih (done ++ [node]) (by rw [List.length_append, List.length_singleton]; omega)
      fun x hx => hfits x (by simp [hx])
    rw [List.map_append, List.length_append, List.length_singleton, List.append_assoc] at hstep
    rw [List.append_cons, ← hstep, records]
    by_cases hocc : node.status = .occupied
    · obtain ⟨k, v, st⟩ := node
      cases hocc
      have hrecord := readRecord_record
        (t := ⟨done.map kept ++ List.replicate (rest.length + 1) blank, sz⟩) (i := done.length)
        (k := k) (v := v) (by omega) (by simp) (hfits ⟨k, v, .occupied⟩ (by simp) rfl)
        (records (done.length + 1) rest)
      have hcount : occupancy ((⟨k, v, .occupied⟩ : Node RespValue) :: rest)
          = occupancy rest + 1 := by simp [occupancy]
      rw [hcount, readRecords, List.length_cons, hrecord]
      simp [bind, Except.bind, kept, List.replicate_succ]
    · have hnil : record done.length node = [] := by
        unfold record
        cases hst : node.status <;> first | rfl | exact absurd hst hocc
      have hcount : occupancy (node :: rest) = occupancy rest := by
        simp [occupancy, hocc]
      simp [hcount, hnil, kept, hocc, List.replicate_succ]

/-- **A file written and read back is the table without its tombstones.**

Each record carries the index of its bucket, so the reader fills the blank table from the front, and
what it leaves out is what was not written. -/
theorem readfromfile_writetofile {t : HashTable RespValue} (hlt : t.bucketsz < 2 ^ 32)
    (hcount : t.sz = occupancy t.buckets)
    (hfits : ∀ node ∈ t.buckets, node.status = .occupied → Fits node.key node.value) :
    (∃ fuel file, t.writetofile fuel = some file) ∧
    ∀ fuel file, t.writetofile fuel = some file → readfromfile file = .ok t.loaded := by
  have hlt' : t.buckets.length < 2 ^ 32 := hlt
  have hwrite : ∀ fuel, t.writetofile fuel = if t.buckets.length < fuel then
      some (u32 t.bucketsz ++ u32 t.sz ++ records 0 t.buckets) else none := by
    intro fuel
    have h := writeLoop_eq hlt' fuel [] t.buckets rfl
    rw [List.length_nil] at h
    rw [writetofile, h]
    split <;> rfl
  refine ⟨⟨t.buckets.length + 1, _, by rw [hwrite, if_pos (Nat.lt_succ_self _)]⟩, ?_⟩
  intro fuel file h
  rw [hwrite] at h
  split at h
  · cases h
    have hsz : t.sz < 2 ^ 32 := by
      have hle : occupancy t.buckets ≤ t.buckets.length := List.countP_le_length
      omega
    have hread := readRecords_records t.sz t.buckets [] (by simpa using hlt') hfits
    simp only [List.map_nil, List.nil_append, List.length_nil] at hread
    have hbz : t.bucketsz % 2 ^ 32 = t.buckets.length := Nat.mod_eq_of_lt hlt
    have hszm : t.sz % 2 ^ 32 = t.sz := Nat.mod_eq_of_lt hsz
    rw [← hcount] at hread
    simp only [readfromfile, List.append_assoc, readU32_u32, bind, Except.bind, hbz, hszm, hread]
    rfl
  · exact absurd h (by simp)

/-! ## The table that is read back

It has the live buckets where they were and blanks elsewhere. So it stores the same pairs; what may
be lost is that they are found. -/

section Loaded

variable {t : HashTable RespValue} {m : Bytes → Option RespValue}

theorem slots_loaded : slots t.loaded.buckets = Probing.sweep (slots t.buckets) := by
  funext i
  simp only [slots, loaded, List.getElem?_map, Probing.sweep]
  cases t.buckets[i]? with
  | none => rfl
  | some node => cases hst : node.status <;> simp [kept, hst, Node.slot, blank]

theorem length_loaded : t.loaded.buckets.length = t.buckets.length := by simp [loaded]

theorem mem_loaded {k : Bytes} {v : RespValue} :
    (⟨k, v, .occupied⟩ : Node RespValue) ∈ t.loaded.buckets ↔
      (⟨k, v, .occupied⟩ : Node RespValue) ∈ t.buckets := by
  rw [loaded, List.mem_map]
  constructor
  · rintro ⟨node, hn, h⟩
    by_cases hocc : node.status = .occupied
    · rw [kept, if_pos hocc] at h
      rwa [← h]
    · rw [kept, if_neg hocc] at h
      exact absurd (congrArg Node.status h) (by simp [blank])
  · intro h
    exact ⟨_, h, by simp [kept]⟩

theorem occupancy_loaded : occupancy t.loaded.buckets = occupancy t.buckets := by
  rw [loaded, occupancy, List.countP_map]
  congr 1
  funext node
  by_cases hocc : node.status = .occupied <;> simp [kept, hocc, blank]

/-- No live key has a tombstone before it on its probe path. -/
def Unburied (t : HashTable RespValue) : Prop :=
  Probing.Unburied t.bucketsz (home t.bucketsz) (slots t.buckets)

theorem unburied_of_live (h : ∀ node ∈ t.buckets, node.status ≠ .deleted) : t.Unburied := by
  intro i k p _ _ _ j _ hdel
  cases hj : t.buckets[j]? with
  | none => simp [slots, hj, blank, Node.slot] at hdel
  | some node =>
    rw [slots_eq_of_getElem? hj, slot_eq_deleted] at hdel
    exact h node (List.mem_of_getElem? hj) hdel

theorem represents_loaded (hr : Represents t m) (hu : t.Unburied) : Represents t.loaded m where
  stores := by
    refine ⟨by rw [length_loaded]; exact hr.stores.pos, ?_, ?_⟩
    · rw [length_loaded, slots_loaded]
      exact (Probing.laid_sweep_iff hr.stores.laid).mpr hu
    · intro k v
      rw [mem_loaded]
      exact hr.stores.holds k v
  count := by
    rw [occupancy_loaded]
    exact hr.count
  load := by
    have := hr.load
    simpa [loaded, bucketsz] using this

/-- The tombstones are gone and the load is bounded, so an empty bucket is left. -/
theorem loaded_exists_empty (hr : Represents t m) :
    ∃ node ∈ t.loaded.buckets, node.status = .empty := by
  refine exists_empty ?_ ?_
  · have hload := hr.load
    have hpos := hr.stores.pos
    rw [hr.count] at hload
    rw [occupancy_loaded, length_loaded]
    unfold bucketsz at hload
    omega
  · intro node hn hdel
    obtain ⟨old, -, rfl⟩ := List.mem_map.mp hn
    by_cases hocc : old.status = .occupied <;> simp [kept, hocc, blank] at hdel

/-- A buried key is not found any more. -/
theorem get_loaded_of_buried (hr : Represents t m) (hb : ¬ t.Unburied) :
    ∃ k v, m k = some v ∧ t.loaded.get k = .ok none := by
  simp only [Unburied, Probing.Unburied, not_forall, not_not, ne_eq] at hb
  obtain ⟨i, k, p, hi, hk, hp, j, hj, hdel⟩ := hb
  obtain ⟨v, hv⟩ := slots_eq_occupied.mp hk
  obtain ⟨e, hsearch, hempty⟩ :=
    Probing.search_sweep_buried hr.stores.laid hr.stores.home_lt hi hk hp hj hdel
  refine ⟨k, v, hr.stores.occupied_of_getElem? hv, ?_⟩
  have hfind : t.loaded.find k = .ok e := by
    have hpos : 0 < t.loaded.bucketsz := by
      show 0 < t.loaded.buckets.length
      rw [length_loaded]
      exact hr.stores.pos
    rw [find_eq_search hpos]
    show answer (Probing.search t.loaded.buckets.length (home t.loaded.buckets.length) _ k) = _
    rw [length_loaded, slots_loaded, hsearch]
    rfl
  have hstatus : (t.loaded.nodeAt e).status = .empty := by
    rw [← slots_loaded] at hempty
    exact slot_eq_empty.mp hempty
  simp [get, hfind, hstatus, bind, Except.bind, pure, Except.pure]

/-- Without an empty bucket the written table throws for a key it does not hold. -/
theorem get_throws_of_full (hr : Represents t m) (hfull : ¬ ∃ node ∈ t.buckets, node.status = .empty) :
    ∃ k, t.get k = .error notFound := by
  classical
  obtain ⟨k, hk⟩ := Infinite.exists_notMem_finset (t.buckets.map Node.key).toFinset
  refine ⟨k, ?_⟩
  have hroom : ¬ t.HasRoom k := by
    rintro (he | ⟨node, hn, -, hkey⟩)
    · exact hfull he
    · exact hk (List.mem_toFinset.mpr (List.mem_map.mpr ⟨node, hn, hkey⟩))
  simp [get, find_of_not_hasRoom hr.stores hroom, bind, Except.bind]

end Loaded

/-! ## The round trip

Two tables with the same map answer alike, and go on answering alike; so it is enough to show that
what is read back still represents the map, or to name a call that tells the two apart. -/

/-- Writing `t`, which holds `m`, and reading the file back gives a table that answers like `t`
and goes on like `m`. -/
def Restores (t : HashTable RespValue) (m : Bytes → Option RespValue) : Prop :=
  ∃ fuel file t', t.writetofile fuel = some file ∧ readfromfile file = .ok t' ∧
    (∀ k, t'.get k = t.get k ∧ t'.checkexist k = t.checkexist k) ∧
    ∀ cs rs u, t'.run cs = .ok (rs, u) →
      rs = replies m cs ∧ (u.forEach.map Prod.fst).Nodup ∧
      ∀ k v, (k, v) ∈ u.forEach ↔ contents m cs k = some v

/-- What is bound was set. -/
theorem mem_of_contents : ∀ (cs : List (Call RespValue)) {m : Bytes → Option RespValue}
    {k : Bytes} {v : RespValue}, contents m cs k = some v → m k = some v ∨ .set k v ∈ cs := by
  intro cs
  induction cs with
  | nil => intro m k v h; exact Or.inl h
  | cons c cs ih =>
    intro m k v h
    rcases ih (m := c.after m) h with hk | hmem
    · cases c with
      | set k' v' =>
        by_cases hkk : k = k'
        · subst hkk
          simp only [Call.after, Function.update_self, Option.some.injEq] at hk
          exact Or.inr (by simp [hk])
        · simp only [Call.after, Function.update_of_ne hkk] at hk
          exact Or.inl hk
      | erase k' =>
        by_cases hkk : k = k'
        · subst hkk
          simp [Call.after] at hk
        · simp only [Call.after, Function.update_of_ne hkk] at hk
          exact Or.inl hk
      | get k' => exact Or.inl hk
      | checkexist k' => exact Or.inl hk
    · exact Or.inr (List.mem_cons_of_mem _ hmem)

theorem fits_of_contents {t : HashTable RespValue} {cs : List (Call RespValue)}
    (hr : Represents t (contents (fun _ => none) cs))
    (hfits : ∀ k v, Call.set k v ∈ cs → Fits k v) :
    ∀ node ∈ t.buckets, node.status = .occupied → Fits node.key node.value := by
  intro ⟨k, v, st⟩ hn hst
  cases hst
  rcases mem_of_contents cs ((hr.stores.holds k v).mpr hn) with hk | hset
  · exact absurd hk (by simp)
  · exact hfits k v hset

/-- **When a snapshot restores.** For every table built from the empty one by calls that did
not throw: exactly when no live key has a tombstone before it on its probe path, some bucket
is empty, and the number of buckets fits the file's counter.

The table that is read back is the written one with its tombstones emptied. A search goes past a
tombstone and stops at an empty bucket, so a key is lost exactly if there is a tombstone before it
on its path; a key that is not stored is looked up alike in both, if the first search can end at
all, for which it needs an empty bucket. -/
theorem restores_iff_unburied (cs : List (Call RespValue)) (rs : List (Reply RespValue))
    (t : HashTable RespValue) (h : fresh.run cs = .ok (rs, t))
    (hfits : ∀ k v, Call.set k v ∈ cs → Fits k v) :
    t.Restores (contents (fun _ => none) cs) ↔
      t.Unburied ∧ (∃ node ∈ t.buckets, node.status = .empty) ∧ t.bucketsz < 2 ^ 32 := by
  have hr := (run_spec cs represents_fresh h).2
  have hnode := fits_of_contents hr hfits
  constructor
  · rintro ⟨fuel, file, t', hwrite, hread, hsame, -⟩
    have hlt : t.bucketsz < 2 ^ 32 := by
      by_contra hge
      rw [writetofile, writeLoop_diverges (Nat.le_of_not_lt hge) fuel 0 (by decide)] at hwrite
      exact absurd hwrite (by simp)
    have ht' := (readfromfile_writetofile hlt hr.count hnode).2 fuel file hwrite
    rw [hread, Except.ok.injEq] at ht'
    subst ht'
    have hu : t.Unburied := by
      by_contra hb
      obtain ⟨k, v, hk, hget⟩ := get_loaded_of_buried hr hb
      have hroom : t.HasRoom k := Or.inr ⟨_, (hr.stores.holds k v).mp hk, rfl, rfl⟩
      rw [(hsame k).1, get_spec hr.stores hroom, hk] at hget
      exact absurd hget (by simp)
    refine ⟨hu, ?_, hlt⟩
    by_contra hfull
    obtain ⟨k, hk⟩ := get_throws_of_full hr hfull
    have hget := get_spec (represents_loaded hr hu).stores (k := k) (Or.inl (loaded_exists_empty hr))
    rw [(hsame k).1, hk] at hget
    exact absurd hget (by simp)
  · rintro ⟨hu, hempty, hlt⟩
    obtain ⟨⟨fuel, file, hwrite⟩, hread⟩ := readfromfile_writetofile hlt hr.count hnode
    have hl := represents_loaded hr hu
    have hroom : ∀ k, t.loaded.HasRoom k := fun k => Or.inl (loaded_exists_empty hr)
    refine ⟨fuel, file, t.loaded, hwrite, hread fuel file hwrite, ?_, ?_⟩
    · intro k
      rw [get_spec hl.stores (hroom k), checkexist_spec hl.stores (hroom k),
        get_spec hr.stores (Or.inl hempty), checkexist_spec hr.stores (Or.inl hempty)]
      exact ⟨rfl, rfl⟩
    · intro ds ss u hrun
      obtain ⟨hss, hu'⟩ := run_spec ds hl hrun
      exact ⟨hss, nodup_forEach hu'.stores, mem_forEach hu'.stores⟩

/-- Three keys of one home bucket. The first one is set again, and the last one is erased. -/
def crowded : List (Call RespValue) :=
  [.set (ascii "a") (.integer 1), .set (ascii "q") (.integer 2), .set (ascii "A") (.integer 3),
    .set (ascii "a") (.simpleString (ascii "b")), .erase (ascii "A")]

theorem crowded_fits : ∀ k v, Call.set k v ∈ crowded → Fits k v := by
  intro k v h
  simp only [crowded, List.mem_cons, List.not_mem_nil, or_false, Call.set.injEq, reduceCtorEq] at h
  obtain ⟨rfl, rfl⟩ | ⟨rfl, rfl⟩ | ⟨rfl, rfl⟩ | ⟨rfl, rfl⟩ := h
  · exact ⟨by decide, trivial, by decide⟩
  · exact ⟨by decide, trivial, by decide⟩
  · exact ⟨by decide, trivial, by decide⟩
  · refine ⟨by decide, ?_, by decide⟩
    show cr ∉ ascii "b"
    decide

def crowdedTable : HashTable RespValue where
  buckets := (((List.replicate 16 blank).set 0
    ⟨ascii "a", .simpleString (ascii "b"), .occupied⟩).set 1
    ⟨ascii "q", .integer 2, .occupied⟩).set 2 ⟨ascii "A", .integer 3, .deleted⟩
  sz := 2

/-- The tombstone is behind the two keys that are left. -/
theorem crowdedTable_unburied : crowdedTable.Unburied := by
  intro i k p hi hk ⟨rest, hpath⟩ j hj hdel
  have hkeys : ∀ i < 16, slots crowdedTable.buckets i = .occupied (ascii "a") ∧ i < 2 ∨
      slots crowdedTable.buckets i = .occupied (ascii "q") ∧ i < 2 ∨
      slots crowdedTable.buckets i = .deleted ∨ slots crowdedTable.buckets i = .empty := by decide
  have htomb : ∀ i < 16, slots crowdedTable.buckets i = .deleted → i = 2 := by decide
  have hplace : i < 2 ∧ home 16 k = 0 := by
    rcases hkeys i hi with ⟨ha, hlt⟩ | ⟨hq, hlt⟩ | hnone | hnone
    · rw [ha, Probing.Slot.occupied.injEq] at hk
      exact ⟨hlt, hk ▸ by decide⟩
    · rw [hq, Probing.Slot.occupied.injEq] at hk
      exact ⟨hlt, hk ▸ by decide⟩
    · exact absurd (hnone.symm.trans hk) (by simp)
    · exact absurd (hnone.symm.trans hk) (by simp)
  have hpath : Probing.path 16 0 = p ++ i :: rest := hplace.2 ▸ hpath
  have hsorted : (p ++ i :: rest).Pairwise (· < ·) := hpath ▸ by decide
  have hbefore : j < i := (List.pairwise_append.mp hsorted).2.2 j hj i List.mem_cons_self
  have hj2 : j = 2 := htomb j (hbefore.trans hi) hdel
  omega

theorem restores_crowded :
    fresh.run crowded = .ok ([.done, .done, .done, .done, .flag true], crowdedTable) ∧
      crowdedTable.Restores (contents (fun _ => none) crowded) := by
  have hrun : fresh.run crowded
      = .ok ([.done, .done, .done, .done, .flag true], crowdedTable) := rfl
  exact ⟨hrun, (restores_iff_unburied crowded _ _ hrun crowded_fits).mpr
    ⟨crowdedTable_unburied, ⟨blank, by simp [crowdedTable], rfl⟩, by decide⟩⟩

/-- Two keys of one home bucket; the one in front is erased. -/
def buried : List (Call RespValue) :=
  [.set (ascii "a") (.integer 1), .set (ascii "q") (.integer 2), .erase (ascii "a")]

def buriedTable : HashTable RespValue :=
  ⟨((List.replicate 16 blank).set 0 ⟨ascii "a", .integer 1, .deleted⟩).set 1
    ⟨ascii "q", .integer 2, .occupied⟩, 1⟩

/-- The file that is written then loses the other. -/
theorem buried_not_restored :
    fresh.run buried = .ok ([.done, .done, .flag true], buriedTable) ∧
      (∀ k v, Call.set k v ∈ buried → Fits k v) ∧
      ¬ buriedTable.Restores (contents (fun _ => none) buried) := by
  have hrun : fresh.run buried = .ok ([.done, .done, .flag true], buriedTable) := rfl
  have hfits : ∀ k v, Call.set k v ∈ buried → Fits k v := by
    intro k v h
    simp only [buried, List.mem_cons, List.not_mem_nil, or_false, Call.set.injEq,
      reduceCtorEq] at h
    rcases h with ⟨rfl, rfl⟩ | ⟨rfl, rfl⟩ <;> exact ⟨by decide, trivial, by decide⟩
  refine ⟨hrun, hfits, ?_⟩
  intro ⟨fuel, file, t', hwrite, hread, hsame, _⟩
  have hr := (run_spec buried represents_fresh hrun).2
  have ht' := (readfromfile_writetofile (by decide) hr.count (fits_of_contents hr hfits)).2
    fuel file hwrite
  rw [hread, Except.ok.injEq] at ht'
  subst ht'
  have hlost : buriedTable.loaded.get (ascii "q") = .ok none := rfl
  have hthere : buriedTable.get (ascii "q") = .ok (some (.integer 2)) := rfl
  rw [(hsame (ascii "q")).1, hthere] at hlost
  exact absurd hlost (by simp)

end HashTable
end Store
end KvJet
