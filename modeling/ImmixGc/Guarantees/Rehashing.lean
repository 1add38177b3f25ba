import ImmixGc.Guarantees.ProbeTermination

/-!
# Rehashing preserves the mapping

`resize` moves the live entries one by one into a table with another mask, for a growing
`GC_Hash_insert` and for a `clearTombstones` that may shrink. It needs no more of the old
table than its counters, distinct live keys, and that `GC_Hash_search` finds each of them.
-/
namespace ImmixGc.Guarantees
open Source Foundation

/-- The old table: the counters of a reachable table, and live keys that are distinct and found. -/
structure Rehashable (table : Hash) : Prop where
  capacity : Capacity table.mask
  used : table.used = countSlots (fun cell => !cell.isFree) (cells table) (table.mask + 1)
  deleted : table.deleted = countSlots Cell.isTomb (cells table) (table.mask + 1)
  load : 4 * table.used ≤ 3 * (table.mask + 1)
  distinct : ∀ s t key v w, s < table.mask + 1 → t < table.mask + 1 →
    table.entries s = ⟨.allocated, key, v⟩ → table.entries t = ⟨.allocated, key, w⟩ → s = t
  found : ∀ slot key value, slot < table.mask + 1 → table.entries slot = ⟨.allocated, key, value⟩ →
    Hash.search table key = .ok value

/-- The capacities that hash.c calls `resize` with. -/
inductive ResizeCall (table : Hash) : Nat → Prop where
  | insert : ResizeCall table (sizeMul table.used 2)
  | clearTombstones (many : table.deleted ≥ (table.mask + 1) / 4) : ResizeCall table table.used

/-- A live key is in one slot, on its own probe sequence, with no free slot before it. -/
structure LiveOnce (table : Hash) (key value : Nat) : Prop where
  reached : ∃ n ≤ table.mask, table.entries (slotAt table.mask key n) = ⟨.allocated, key, value⟩ ∧
    ∀ m < n, (table.entries (slotAt table.mask key m)).status ≠ .free
  once : ∀ s t v w, s < table.mask + 1 → t < table.mask + 1 →
    table.entries s = ⟨.allocated, key, v⟩ → table.entries t = ⟨.allocated, key, w⟩ → s = t

/-- The number of live keys. -/
def liveKeys (table : Hash) : Nat := countSlots Cell.isFull (cells table) (table.mask + 1)

/-- What `resize` makes of an old table. -/
structure SameMapping (old table : Hash) : Prop where
  search : ∀ key, Hash.search table key = Hash.search old key
  live : ∀ slot key value, slot < old.mask + 1 → old.entries slot = ⟨.allocated, key, value⟩ →
    LiveOnce table key value
  noOthers : ∀ slot key value, slot < table.mask + 1 →
    table.entries slot = ⟨.allocated, key, value⟩ →
      ∃ slot < old.mask + 1, old.entries slot = ⟨.allocated, key, value⟩
  deleted : table.deleted = 0
  used : table.used = liveKeys old ∧ table.used = liveKeys table

section Rehash
variable {self table : Hash}

/-- The live entries fill at most three quarters of the requested capacity. -/
theorem Rehashable.fits (old : Rehashable self) {capacity : Nat} (call : ResizeCall self capacity) :
    4 * liveKeys self ≤ 3 * max 8 capacity := by
  have occupied := countSlots_occupied (cells self) (self.mask + 1)
  have used := old.used
  have deleted := old.deleted
  have load := old.load
  rw [liveKeys]
  cases call with
  | insert =>
    have double : sizeMul self.used 2 = 2 * self.used := by
      obtain ⟨bits, -, high, size⟩ := old.capacity
      have bound : 2 ^ bits ≤ 2 ^ 63 := Nat.pow_le_pow_right (by decide) high
      simp only [sizeMul, sizeModulus]
      omega
    omega
  | clearTombstones many =>
    have eight := old.capacity.eight_dvd
    omega

/-- A search for a key without a live entry finds nothing. -/
theorem search_absent (capacity : Capacity self.mask) (room : HasFree self) {key : Nat}
    (absent : Absent (self.mask + 1) (cells self) key) : Hash.search self key = .ok null := by
  obtain ⟨slot, lookup, bound, n, -, stops, -⟩ := lookup_spec capacity room key
  rw [Hash.search, lookup, ok_bind]
  rcases stopsSearch_cases stops with free | tomb | ⟨value, full⟩
  · rw [if_neg (by rw [cellOf_eq_free.mp free]; decide)]
  · rw [if_neg (by rw [(cellOf_eq_tomb.mp tomb).1]; decide)]
  · exact absurd ⟨slot, bound, full⟩ (absent value)

/-- A search for a live key of a well-formed table finds its value. -/
theorem search_held (wellFormed : WellFormed self) {key value : Nat}
    (held : Holds (self.mask + 1) (cells self) key value) : Hash.search self key = .ok value := by
  obtain ⟨slot, lookup, bound, stop⟩ := lookup_spec wellFormed.capacity wellFormed.hasFree key
  have entry : self.entries slot = ⟨.allocated, key, value⟩ :=
    cellOf_eq_full.mp ((wellFormed.consistent.search_iff bound stop).mpr held)
  rw [Hash.search, lookup, ok_bind, entry]
  rfl

/-- The probe sequence of a live key reaches its slot within one round. -/
theorem WellFormed.liveOnce (wellFormed : WellFormed self) {slot key value : Nat}
    (bound : slot < self.mask + 1) (entry : self.entries slot = ⟨.allocated, key, value⟩) :
    LiveOnce self key value := by
  have full : cells self slot = .full key value := cellOf_eq_full.mpr entry
  obtain ⟨n, here, stops, before⟩ := wellFormed.consistent.reached slot key value bound full
  obtain ⟨k, within, there⟩ := wellFormed.capacity.covers key bound
  refine ⟨⟨n, ?_, by rw [here]; exact entry, fun m earlier free => ?_⟩, ?_⟩
  · -- a later visit of the same slot would pass it
    by_contra late
    have passed := before k (by omega)
    rw [there, stops] at passed
    cases passed
  · have passed := before m earlier
    rw [show cells self (slotAt self.mask key m) = .free from cellOf_eq_free.mpr free] at passed
    cases passed
  · intro s t v w hs ht es et
    exact wellFormed.consistent.unique s t key v w hs ht (cellOf_eq_full.mpr es)
      (cellOf_eq_full.mpr et)

theorem Rehashable.hasFree (old : Rehashable self) : HasFree self := by
  have load := old.load
  have used := old.used
  exact hasFree_of_count (by omega)

theorem Resized.sameMapping {capacity : Nat} (old : Rehashable self)
    (resized : Resized self capacity table) : SameMapping self table := by
  have wellFormed := resized.wellFormed
  refine ⟨fun key => ?_, fun slot key value bound entry => ?_, fun slot key value bound entry => ?_,
    resized.deleted, resized.used, ?_⟩
  · by_cases live : ∃ value, Holds (self.mask + 1) (cells self) key value
    · obtain ⟨value, slot, bound, full⟩ := live
      rw [search_held wellFormed ((resized.holds key value).mpr ⟨slot, bound, full⟩),
        old.found slot key value bound (cellOf_eq_full.mp full)]
    · have absent : Absent (self.mask + 1) (cells self) key := fun value held => live ⟨value, held⟩
      rw [search_absent old.capacity old.hasFree absent,
        search_absent wellFormed.capacity wellFormed.hasFree
          fun value held => absent value ((resized.holds key value).mp held)]
  · obtain ⟨slot', bound', full⟩ :=
      (resized.holds key value).mpr ⟨slot, bound, cellOf_eq_full.mpr entry⟩
    exact wellFormed.liveOnce bound' (cellOf_eq_full.mp full)
  · obtain ⟨slot', bound', full⟩ :=
      (resized.holds key value).mp ⟨slot, bound, cellOf_eq_full.mpr entry⟩
    exact ⟨slot', bound', cellOf_eq_full.mp full⟩
  · have occupied := countSlots_occupied (cells table) (table.mask + 1)
    have used := wellFormed.used
    have deleted := wellFormed.deleted
    rw [resized.deleted] at deleted
    rw [liveKeys]
    omega

end Rehash

/-- Every `resize` that hash.c calls keeps the mapping, when `calloc` finds memory. -/
theorem resize_preserves_mapping {self : Hash} (old : Rehashable self) {capacity : Nat}
    (call : ResizeCall self capacity) :
    (∃ table, Hash.resize self capacity = .ok table ∧ SameMapping self table) ∨
    Hash.resize self capacity = .error callocFailed := by
  have unique : ∀ s t key v w, s < self.mask + 1 → t < self.mask + 1 →
      cells self s = .full key v → cells self t = .full key w → s = t :=
    fun s t key v w hs ht es et =>
      old.distinct s t key v w hs ht (cellOf_eq_full.mp es) (cellOf_eq_full.mp et)
  rcases resize_distinct capacity unique (old.fits call) with ⟨table, run, resized⟩ | failed
  · exact Or.inl ⟨table, run, resized.sameMapping old⟩
  · exact Or.inr failed

/-- Keys 16, 64 and 144 share their first slot; the tombstones of two of them fill a quarter of
the eight slots. -/
def crowded : Hash where
  entries slot :=
    if slot = slotAt 7 16 0 then ⟨.deleted, 16, 1⟩
    else if slot = slotAt 7 64 1 then ⟨.deleted, 64, 2⟩
    else if slot = slotAt 7 144 2 then ⟨.allocated, 144, 3⟩
    else Entry.zero
  mask := 7
  used := 3
  deleted := 2

theorem crowded_rehashable : Rehashable crowded := by
  have only : ∀ slot key value, crowded.entries slot = ⟨.allocated, key, value⟩ →
      slot = slotAt 7 144 2 ∧ key = 144 ∧ value = 3 := by
    intro slot key value entry
    simp only [crowded] at entry
    split at entry
    · cases entry
    split at entry
    · cases entry
    split at entry
    · next here =>
      cases entry
      exact ⟨here, rfl, rfl⟩
    · cases entry
  refine ⟨⟨3, by decide, by decide, rfl⟩, by decide +kernel, by decide +kernel, by decide,
    fun s t key v w _ _ es et => ?_, fun slot key value _ entry => ?_⟩
  · exact (only s key v es).1.trans (only t key w et).1.symm
  · obtain ⟨-, rfl, rfl⟩ := only slot key value entry
    decide +kernel

/-- The tombstones are cleared and the remaining entry moves to its first slot. -/
theorem crowded_keeps_mapping : ∃ table, Hash.clearTombstones crowded = .ok table ∧
    SameMapping crowded table := by
  have cleared : Hash.clearTombstones crowded = Hash.resize crowded crowded.used :=
    if_pos (by decide)
  have ends : (Hash.resize crowded crowded.used).toBool = true := by decide +kernel
  rcases resize_preserves_mapping crowded_rehashable (.clearTombstones (by decide)) with
    ⟨table, run, same⟩ | failed
  · exact ⟨table, cleared.trans run, same⟩
  · rw [failed] at ends
    cases ends

end ImmixGc.Guarantees
