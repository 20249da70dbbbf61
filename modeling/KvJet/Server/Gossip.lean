import KvJet.Lib.OrderedMap
import KvJet.Lib.Run
import KvJet.Server.Ring

/-!
# The duplicate check of gossip

`findGossip` and `addGossip` of `Cluster.cpp`, as the workers call them for the copies of NODEIN
and NODEOUT messages: a copy is dropped if its id is in `gossip_cache`, and otherwise puts it
there. The two calls are two critical sections, and the cache forgets: what is older than a minute
by the system clock, and the smallest id when there are more than a thousand.
-/

namespace KvJet
namespace Server

open OrderedMap (Ordered)

/-- `Config::GOSSIP_TIMEOUT_MS`. -/
def gossipTimeoutMs : UInt64 := 60000

/-- `Config::GOSSIP_CACHE_SIZE`. -/
def gossipCacheSize : Nat := 1000

/-- `gossip_cache`: when an id was added. -/
abbrev GossipCache := List (UInt64 × UInt64)

namespace GossipCache

def findGossip (cache : GossipCache) (id : UInt64) : Bool := (cache.lookup id).isSome

/-- The difference is one of unsigned numbers: an entry from after `now` is old, too. -/
def expired (now : UInt64) (entry : UInt64 × UInt64) : Bool := now - entry.2 > gossipTimeoutMs

/-- The cache before its size is looked at. -/
def stamp (cache : GossipCache) (now id : UInt64) : GossipCache :=
  (assign id now cache).filter fun entry => ¬ expired now entry

def addGossip (cache : GossipCache) (now id : UInt64) : GossipCache :=
  let cache := stamp cache now id
  if cache.length > gossipCacheSize then cache.tail else cache

/-- The id that an addition puts out because of the size. -/
def putOutBy (cache : GossipCache) (now id : UInt64) : Option UInt64 :=
  let cache := stamp cache now id
  if cache.length > gossipCacheSize then cache.head?.map Prod.fst else none

variable {cache : GossipCache} {now id : UInt64}

theorem findGossip_eq_true (h : Ordered cache) :
    cache.findGossip id = true ↔ ∃ time, (id, time) ∈ cache := by
  unfold findGossip
  rw [Option.isSome_iff_exists]
  exact exists_congr fun time => h.lookup_eq_some

theorem mem_stamp (h : Ordered cache) {entry : UInt64 × UInt64} :
    entry ∈ cache.stamp now id ↔
      entry = (id, now) ∨ (entry ∈ cache ∧ entry.1 ≠ id ∧ expired now entry = false) := by
  unfold stamp
  rw [assign_eq_insert, List.mem_filter, OrderedMap.mem_insert h]
  have hfresh : expired now (id, now) = false := by simp [expired]
  constructor
  · rintro ⟨rfl | ⟨hin, hne⟩, hkeep⟩
    · exact Or.inl rfl
    · exact Or.inr ⟨hin, hne, by simpa using hkeep⟩
  · rintro (rfl | ⟨hin, hne, hkeep⟩)
    · exact ⟨Or.inl rfl, by simp [hfresh]⟩
    · exact ⟨Or.inr ⟨hin, hne⟩, by simp [hkeep]⟩

theorem ordered_stamp (h : Ordered cache) : Ordered (cache.stamp now id) := by
  unfold stamp
  rw [assign_eq_insert]
  exact (h.insert id now).filter _

theorem ordered_addGossip (h : Ordered cache) : Ordered (cache.addGossip now id) := by
  unfold addGossip
  dsimp only
  split
  · exact (ordered_stamp h).sublist (List.tail_sublist _)
  · exact ordered_stamp h

theorem mem_addGossip {entry : UInt64 × UInt64} (hentry : entry ∈ cache.addGossip now id) :
    entry ∈ cache.stamp now id := by
  unfold addGossip at hentry
  dsimp only at hentry
  split at hentry
  · exact List.mem_of_mem_tail hentry
  · exact hentry

/-- What is stamped stays, or the size puts it out. -/
theorem addGossip_keeps {entry : UInt64 × UInt64} (hentry : entry ∈ cache.stamp now id) :
    entry ∈ cache.addGossip now id ∨ cache.putOutBy now id = some entry.1 := by
  unfold addGossip putOutBy
  dsimp only
  split
  · cases hcache : cache.stamp now id with
    | nil =>
      rw [hcache] at hentry
      exact absurd hentry List.not_mem_nil
    | cons first rest =>
      rw [hcache] at hentry
      rcases List.mem_cons.mp hentry with rfl | hrest
      · exact Or.inr rfl
      · exact Or.inl hrest
  · exact Or.inl hentry

/-- An addition puts no other id in. -/
theorem findGossip_addGossip_of_ne {id' : UInt64} (hne : id' ≠ id)
    (h : cache.findGossip id' = false) : (cache.addGossip now id).findGossip id' = false := by
  have hnone : ∀ entry ∈ cache, entry.1 ≠ id' := by
    intro entry hentry heq
    unfold findGossip at h
    rw [Option.isSome_eq_false_iff, Option.isNone_iff_eq_none, List.lookup_eq_none_iff] at h
    exact absurd (h entry hentry) (by simp [heq])
  unfold findGossip
  rw [Option.isSome_eq_false_iff, Option.isNone_iff_eq_none, List.lookup_eq_none_iff]
  intro entry hentry
  have hassign := List.mem_of_mem_filter (mem_addGossip hentry)
  rcases Cluster.mem_assign hassign with rfl | hold
  · simpa using hne
  · simpa using (hnone entry hold).symm

end GossipCache

/-! ## The workers

A worker that has found an id missing is not told when another one puts it there. -/

namespace Gossip

inductive Place where
  | waiting
  /-- Found in the cache: the handler returns. -/
  | refused
  /-- Not found, and not yet added. -/
  | checked
  | added
deriving DecidableEq, Repr

/-- A copy of a gossip message, and how far its handler has come. -/
structure Copy where
  id : UInt64
  arrived : UInt64
  place : Place := .waiting
deriving DecidableEq, Repr

namespace Copy

/-- Past the duplicate check. -/
def Passed (c : Copy) : Prop := c.place = .checked ∨ c.place = .added

instance : DecidablePred Passed := fun _ => inferInstanceAs (Decidable (_ ∨ _))

/-- Two copies of one message that arrived within the timeout. -/
def Near (c d : Copy) : Prop :=
  c.id = d.id ∧ c.arrived.toNat ≤ d.arrived.toNat + gossipTimeoutMs.toNat ∧
    d.arrived.toNat ≤ c.arrived.toNat + gossipTimeoutMs.toNat

instance (c d : Copy) : Decidable (c.Near d) := inferInstanceAs (Decidable (_ ∧ _ ∧ _))

theorem Near.symm {c d : Copy} (h : c.Near d) : d.Near c := ⟨h.1.symm, h.2.2, h.2.1⟩

end Copy

end Gossip

/-- A server, as far as the check goes. -/
structure Gossip where
  /-- What the system clock shows. -/
  now : UInt64
  cache : GossipCache := []
  copies : List Gossip.Copy := []
  /-- The ids put out because of the size that have not come in again. -/
  putOut : List UInt64 := []

namespace Gossip

inductive Event where
  | clock (now : UInt64)
  | arrive (id : UInt64)
  /-- A worker calls `findGossip` for the copy number `i`. -/
  | find (i : Nat)
  /-- And then `addGossip`. -/
  | add (i : Nat)
  /-- `joinCluster` and `gracefulShutdown` add the ids of their own messages. -/
  | addOwn (id : UInt64)
deriving DecidableEq, Repr

def addGossip (s : Gossip) (id : UInt64) : Gossip :=
  { s with
    cache := s.cache.addGossip s.now id
    putOut := s.putOut.filter (· ≠ id) ++ (s.cache.putOutBy s.now id).toList }

def place (s : Gossip) (i : Nat) (c : Copy) (place : Place) : Gossip :=
  { s with copies := s.copies.set i { c with place } }

def step (s : Gossip) : Event → Gossip
  | .clock now => { s with now }
  | .arrive id => { s with copies := s.copies ++ [⟨id, s.now, .waiting⟩] }
  | .find i =>
    match s.copies[i]? with
    | some c =>
      if c.place = .waiting then
        s.place i c (if s.cache.findGossip c.id then .refused else .checked)
      else s
    | none => s
  | .add i =>
    match s.copies[i]? with
    | some c => if c.place = .checked then (s.addGossip c.id).place i c .added else s
    | none => s
  | .addOwn id => s.addGossip id

/-- No two copies of a message that arrived within the timeout are past the check. -/
def AtMostOnce (s : Gossip) : Prop :=
  ∀ (i j : Nat) (c d : Copy), s.copies[i]? = some c → s.copies[j]? = some d → i ≠ j → c.Near d →
    ¬ (c.Passed ∧ d.Passed)

/-- An addition drops an old entry only when no copy is waiting that arrived within the timeout of
one that is past the check. -/
def ExpiresUnmissed (s : Gossip) (id : UInt64) : Prop :=
  ∀ entry ∈ s.cache, entry.1 ≠ id → GossipCache.expired s.now entry = true →
    ∀ c ∈ s.copies, ∀ d ∈ s.copies, d.id = entry.1 → c.place = .waiting → d.Passed → ¬ c.Near d

/-- The clock does not go back. A copy whose id is not in the cache is checked only when no copy
near it is between its check and its addition, and none has been put out because of the size. -/
def Careful (s : Gossip) : Event → Prop
  | .clock now => s.now ≤ now
  | .arrive _ => True
  | .find i => ∀ c ∈ s.copies[i]?, c.place = .waiting → s.cache.findGossip c.id = false →
      ∀ d ∈ s.copies, c.Near d → d.place ≠ .checked ∧ (d.place = .added → d.id ∉ s.putOut)
  | .add i => ∀ c ∈ s.copies[i]?, c.place = .checked → s.ExpiresUnmissed c.id
  | .addOwn id => s.ExpiresUnmissed id

instance (s : Gossip) (id : UInt64) : Decidable (s.ExpiresUnmissed id) :=
  @List.decidableBAll _ _
    (fun _ => inferInstanceAs (Decidable (_ → _ → ∀ c ∈ s.copies, ∀ d ∈ s.copies, _))) s.cache

instance (s : Gossip) : DecidablePred s.Careful
  | .clock _ => inferInstanceAs (Decidable (_ ≤ _))
  | .arrive _ => inferInstanceAs (Decidable True)
  | .find i => inferInstanceAs (Decidable (∀ c ∈ s.copies[i]?, _ → _ → ∀ d ∈ s.copies, _))
  | .add i => inferInstanceAs (Decidable (∀ c ∈ s.copies[i]?, _ → s.ExpiresUnmissed _))
  | .addOwn id => inferInstanceAs (Decidable (s.ExpiresUnmissed id))

/-! ## What a careful run keeps -/

/-- Why another copy near `d` does not get past the check: the id is in the cache, or the size has
put it out, or all that arrive from now on arrive too late. -/
def Covered (s : Gossip) (d : Copy) : Prop :=
  (∃ time, (d.id, time) ∈ s.cache ∧ d.arrived ≤ time) ∨ d.id ∈ s.putOut ∨
    (d.arrived.toNat + gossipTimeoutMs.toNat < s.now.toNat ∧
      ∀ c ∈ s.copies, c.place = .waiting → ¬ c.Near d)

/-- No message has been handled twice, and none that has been handled can be once more: its id is in
the cache, or it is so old that no copy near it is left (`covered`). -/
structure Kept (s : Gossip) : Prop where
  ordered : Ordered s.cache
  past : ∀ c ∈ s.copies, c.arrived ≤ s.now
  stamps : ∀ entry ∈ s.cache, entry.2 ≤ s.now
  once : s.AtMostOnce
  covered : ∀ d ∈ s.copies, d.place = .added → s.Covered d

variable {s : Gossip}

theorem expired_iff {now : UInt64} {entry : UInt64 × UInt64} (h : entry.2 ≤ now) :
    GossipCache.expired now entry = true ↔
      entry.2.toNat + gossipTimeoutMs.toNat < now.toNat := by
  unfold GossipCache.expired
  rw [decide_eq_true_eq, gt_iff_lt, UInt64.lt_iff_toNat_lt, UInt64.toNat_sub_of_le _ _ h]
  have := UInt64.le_iff_toNat_le.mp h
  omega

/-- What the cache does to the entries it had. -/
theorem Kept.mem_addGossip (h : s.Kept) {id : UInt64} {entry : UInt64 × UInt64}
    (hentry : entry ∈ s.cache) (hne : entry.1 ≠ id)
    (hfresh : GossipCache.expired s.now entry = false) :
    entry ∈ (s.addGossip id).cache ∨ entry.1 ∈ (s.addGossip id).putOut := by
  have hstamp : entry ∈ s.cache.stamp s.now id :=
    (GossipCache.mem_stamp h.ordered).mpr (Or.inr ⟨hentry, hne, hfresh⟩)
  rcases GossipCache.addGossip_keeps hstamp with hin | hout
  · exact Or.inl hin
  · refine Or.inr (List.mem_append_right _ ?_)
    rw [hout]
    exact List.mem_singleton_self _

/-- The id itself is in the cache afterwards, or put out at once. -/
theorem Kept.self_addGossip (h : s.Kept) (id : UInt64) :
    (id, s.now) ∈ (s.addGossip id).cache ∨ id ∈ (s.addGossip id).putOut := by
  have hstamp : (id, s.now) ∈ s.cache.stamp s.now id :=
    (GossipCache.mem_stamp h.ordered).mpr (Or.inl rfl)
  rcases GossipCache.addGossip_keeps hstamp with hin | hout
  · exact Or.inl hin
  · refine Or.inr (List.mem_append_right _ ?_)
    rw [hout]
    exact List.mem_singleton_self _

/-- A copy of the id that is added is covered by that. -/
theorem Kept.covered_self (h : s.Kept) {d : Copy} (hpast : d.arrived ≤ s.now) :
    (s.addGossip d.id).Covered d := by
  rcases h.self_addGossip d.id with hin | hout
  · exact Or.inl ⟨_, hin, hpast⟩
  · exact Or.inr (Or.inl hout)

theorem Kept.addGossip (h : s.Kept) {id : UInt64} (hexpires : s.ExpiresUnmissed id) :
    (s.addGossip id).Kept := by
  refine ⟨GossipCache.ordered_addGossip h.ordered, h.past, ?_, h.once, ?_⟩
  · intro entry hentry
    rcases (GossipCache.mem_stamp h.ordered).mp (GossipCache.mem_addGossip hentry) with
      rfl | ⟨hold, -, -⟩
    · exact UInt64.le_refl _
    · exact h.stamps entry hold
  · intro d hd hadded
    by_cases hid : d.id = id
    · rw [← hid]
      exact h.covered_self (h.past d hd)
    · rcases h.covered d hd hadded with ⟨time, hin, harrived⟩ | hout | hlate
      · cases hold : GossipCache.expired s.now (d.id, time) with
        | false =>
          rcases h.mem_addGossip hin hid hold with hin | hout
          · exact Or.inl ⟨time, hin, harrived⟩
          · exact Or.inr (Or.inl hout)
        | true =>
          -- dropped for its age: what arrives from now on is not near
          refine Or.inr (Or.inr ⟨?_, fun c hc hwait => ?_⟩)
          · have hlt : time.toNat + gossipTimeoutMs.toNat < s.now.toNat :=
              (expired_iff (h.stamps _ hin)).mp hold
            have hle := UInt64.le_iff_toNat_le.mp harrived
            show _ < s.now.toNat
            omega
          · exact hexpires _ hin hid hold c hc d hd rfl hwait (Or.inr hadded)
      · refine Or.inr (Or.inl (List.mem_append_left _ ?_))
        exact List.mem_filter.mpr ⟨hout, by simpa using hid⟩
      · exact Or.inr (Or.inr hlate)

theorem Kept.clock (h : s.Kept) {now : UInt64} (hle : s.now ≤ now) :
    ({ s with now } : Gossip).Kept := by
  refine ⟨h.ordered, fun c hc => UInt64.le_trans (h.past c hc) hle,
    fun entry hentry => UInt64.le_trans (h.stamps entry hentry) hle, h.once, ?_⟩
  intro d hd hadded
  rcases h.covered d hd hadded with hin | hout | ⟨hlate, hwait⟩
  · exact Or.inl hin
  · exact Or.inr (Or.inl hout)
  · exact Or.inr (Or.inr ⟨Nat.lt_of_lt_of_le hlate (UInt64.le_iff_toNat_le.mp hle), hwait⟩)

theorem Kept.arrive (h : s.Kept) (id : UInt64) : (s.step (.arrive id)).Kept := by
  have hget : ∀ {i : Nat} {c : Copy}, (s.copies ++ [⟨id, s.now, .waiting⟩])[i]? = some c →
      c.Passed → s.copies[i]? = some c := by
    intro i c hc hpassed
    by_cases hi : i < s.copies.length
    · rwa [List.getElem?_append_left hi] at hc
    · rw [List.getElem?_append_right (Nat.le_of_not_lt hi)] at hc
      have hmem := List.mem_of_getElem? hc
      rw [List.mem_singleton.mp hmem] at hpassed
      exact absurd hpassed (by simp [Copy.Passed])
  refine ⟨h.ordered, ?_, h.stamps, ?_, ?_⟩
  · intro c hc
    rcases List.mem_append.mp hc with hold | hnew
    · exact h.past c hold
    · rw [List.mem_singleton.mp hnew]
      exact UInt64.le_refl _
  · rintro i j c d hc hd hij hnear ⟨hpc, hpd⟩
    exact h.once i j c d (hget hc hpc) (hget hd hpd) hij hnear ⟨hpc, hpd⟩
  · intro d hd hadded
    have hold : d ∈ s.copies := by
      rcases List.mem_append.mp hd with hold | hnew
      · exact hold
      · rw [List.mem_singleton.mp hnew] at hadded
        exact absurd hadded (by simp)
    rcases h.covered d hold hadded with hin | hout | ⟨hlate, hwait⟩
    · exact Or.inl hin
    · exact Or.inr (Or.inl hout)
    · refine Or.inr (Or.inr ⟨hlate, fun c hc hcw hnear => ?_⟩)
      rcases List.mem_append.mp hc with hc | hnew
      · exact hwait c hc hcw hnear
      · -- it arrives now, and that is late
        rw [List.mem_singleton.mp hnew] at hnear
        have := hnear.2.1
        dsimp only at this
        omega

/-- A copy moves on and the cache is left alone. -/
theorem Kept.place (h : s.Kept) {i : Nat} {c : Copy} (hc : s.copies[i]? = some c) (p : Place)
    (hp : p ≠ .waiting) (honce : p ≠ .refused →
      c.Passed ∨ ∀ (j : Nat) (d : Copy), s.copies[j]? = some d → i ≠ j → c.Near d → ¬ d.Passed)
    (hcovered : p = .added → s.Covered c) : (s.place i c p).Kept := by
  have hmem : c ∈ s.copies := List.mem_of_getElem? hc
  have hcopy : ∀ d ∈ (s.place i c p).copies, d ∈ s.copies ∨ d = { c with place := p } :=
    fun d hd => List.mem_or_eq_of_mem_set hd
  have hcover : ∀ d, s.Covered d → (s.place i c p).Covered d := by
    rintro d (hin | hout | ⟨hlate, hwait⟩)
    · exact Or.inl hin
    · exact Or.inr (Or.inl hout)
    · refine Or.inr (Or.inr ⟨hlate, fun e he hew => ?_⟩)
      rcases hcopy e he with hold | rfl
      · exact hwait e hold hew
      · exact absurd hew hp
  have hnew : p ≠ .refused → ∀ (j : Nat) (d : Copy), s.copies[j]? = some d → i ≠ j → c.Near d →
      ¬ d.Passed := by
    intro hrefused j d hd hij hnear hpassed
    rcases honce hrefused with hcp | hfree
    · exact h.once i j c d hc hd hij hnear ⟨hcp, hpassed⟩
    · exact hfree j d hd hij hnear hpassed
  have hpassed : ∀ d : Copy, d = { c with place := p } → d.Passed → p ≠ .refused := by
    rintro d rfl hd rfl
    exact absurd hd (by simp [Copy.Passed])
  refine ⟨h.ordered, ?_, h.stamps, ?_, ?_⟩
  · intro d hd
    rcases hcopy d hd with hold | rfl
    · exact h.past d hold
    · exact h.past c hmem
  · rintro j k d e hd he hjk hnear ⟨hpd, hpe⟩
    have hd : (s.copies.set i { c with place := p })[j]? = some d := hd
    have he : (s.copies.set i { c with place := p })[k]? = some e := he
    rw [List.getElem?_set] at hd he
    by_cases hij : i = j
    · subst hij
      have hik : i ≠ k := hjk
      rw [if_pos rfl] at hd
      rw [if_neg hik] at he
      have hd : d = { c with place := p } := by
        split at hd
        · exact (Option.some.inj hd).symm
        · exact absurd hd (by simp)
      have href := hpassed d hd hpd
      subst hd
      exact hnew href k e he hik hnear hpe
    · rw [if_neg hij] at hd
      by_cases hik : i = k
      · subst hik
        rw [if_pos rfl] at he
        have he : e = { c with place := p } := by
          split at he
          · exact (Option.some.inj he).symm
          · exact absurd he (by simp)
        have href := hpassed e he hpe
        subst he
        exact hnew href j d hd hij hnear.symm hpd
      · rw [if_neg hik] at he
        exact h.once j k d e hd he hjk hnear ⟨hpd, hpe⟩
  · intro d hd hadded
    rcases hcopy d hd with hold | rfl
    · exact hcover d (h.covered d hold hadded)
    · exact hcover _ (hcovered hadded)

/-- Nothing near a waiting copy is past the check when the cache does not have its id. -/
theorem Kept.find_free (h : s.Kept) {c : Copy} (hc : c ∈ s.copies) (hwait : c.place = .waiting)
    (hfind : s.cache.findGossip c.id = false)
    (hcareful : ∀ d ∈ s.copies, c.Near d →
      d.place ≠ .checked ∧ (d.place = .added → d.id ∉ s.putOut)) :
    ∀ d ∈ s.copies, c.Near d → ¬ d.Passed := by
  intro d hd hnear hpassed
  obtain ⟨hchecked, hputOut⟩ := hcareful d hd hnear
  have hadded := hpassed.resolve_left hchecked
  rcases h.covered d hd hadded with ⟨time, hin, -⟩ | hout | ⟨-, hlate⟩
  · rw [← hnear.1] at hin
    have hfound := (GossipCache.findGossip_eq_true h.ordered).mpr ⟨time, hin⟩
    rw [hfind] at hfound
    exact absurd hfound (by simp)
  · exact hputOut hadded hout
  · exact hlate c hc hwait hnear

theorem Kept.step (h : s.Kept) (ev : Event) (hcareful : s.Careful ev) : (s.step ev).Kept := by
  cases ev with
  | clock now => exact h.clock hcareful
  | arrive id => exact h.arrive id
  | find i =>
    cases hc : s.copies[i]? with
    | none =>
      simp only [Gossip.step, hc]
      exact h
    | some c =>
      simp only [Gossip.step, hc]
      by_cases hwait : c.place = .waiting
      · rw [if_pos hwait]
        cases hfind : s.cache.findGossip c.id with
        | true => exact h.place hc .refused (by simp) (by simp) (by simp)
        | false =>
          have hmem := List.mem_of_getElem? hc
          have hfree := h.find_free hmem hwait hfind (hcareful c hc hwait hfind)
          refine h.place hc .checked (by simp) (fun _ => Or.inr fun j d hd _ => ?_) (by simp)
          exact hfree d (List.mem_of_getElem? hd)
      · rw [if_neg hwait]
        exact h
  | add i =>
    cases hc : s.copies[i]? with
    | none =>
      simp only [Gossip.step, hc]
      exact h
    | some c =>
      simp only [Gossip.step, hc]
      by_cases hchecked : c.place = .checked
      · rw [if_pos hchecked]
        have hadd := h.addGossip (hcareful c hc hchecked)
        have hpast := h.past c (List.mem_of_getElem? hc)
        exact hadd.place hc .added (by simp) (fun _ => Or.inl (Or.inl hchecked))
          fun _ => h.covered_self hpast
      · rw [if_neg hchecked]
        exact h
  | addOwn id => exact h.addGossip hcareful

theorem kept_start (now : UInt64) : Kept { now } := by
  refine ⟨OrderedMap.ordered_nil, ?_, ?_, ?_, ?_⟩
  · intro c hc
    exact absurd hc List.not_mem_nil
  · intro entry hentry
    exact absurd hentry List.not_mem_nil
  · intro i j c d hc
    exact absurd hc (by simp)
  · intro d hd
    exact absurd hd List.not_mem_nil

/-- **Gossip is handled at most once** in every careful run.

Between the look into the cache and the entry into it another copy can look, too; where this does
not happen, the first copy that looks puts the id in, and all that come later find it. They find it
as long as the cache has not forgotten it, after a minute or for want of room. -/
theorem handled_once (now : UInt64) (evs : List Event)
    (hrun : Run.Along step Careful { now } evs) : (Run.exec step { now } evs).AtMostOnce :=
  (Run.Along.invariant (fun _ ev hcareful h => Kept.step h ev hcareful) hrun (kept_start now)).once

/-- Two copies, one after another, another message between them, and the first id once more when
the minute is over. -/
def relayed : List Event :=
  [.arrive 7, .arrive 7, .find 0, .add 0, .arrive 3, .find 2, .add 2, .find 1, .clock 60001,
    .arrive 7, .addOwn 9, .find 3, .add 3]

theorem handled_once_relayed :
    (Run.exec step { now := 0 } relayed).copies.map Copy.place
      = [.added, .refused, .added, .added] ∧
    (Run.exec step { now := 0 } relayed).AtMostOnce :=
  ⟨by decide, handled_once 0 relayed (by decide)⟩

/-- Two workers look before either of them adds. -/
def bothLook : List Event := [.arrive 7, .arrive 7, .find 0, .find 1]

theorem bothLook_handles_twice :
    (Run.exec step { now := 0 } bothLook).copies = [⟨7, 0, .checked⟩, ⟨7, 0, .checked⟩] ∧
    ¬ (Run.exec step { now := 0 } bothLook).AtMostOnce := by
  have hcopies : (Run.exec step { now := 0 } bothLook).copies
      = [⟨7, 0, .checked⟩, ⟨7, 0, .checked⟩] := by decide
  refine ⟨hcopies, fun h => ?_⟩
  refine h 0 1 ⟨7, 0, .checked⟩ ⟨7, 0, .checked⟩ ?_ ?_ (by decide) (by decide) (by decide)
  · rw [hcopies]
    rfl
  · rw [hcopies]
    rfl

end Gossip
end Server
end KvJet
