import ImmixGc.Guarantees.FinalizerTable

/-!
# The probing loops of the finalizer table end

`lookupForInsert`, `search` and `delete` loop without a bound. They end because the
triangular probe visits every slot and a slot is always free: `used` counts at least the
slots that are not free and stays at three quarters of the capacity. None of this needs
the keys to be distinct, so replaced and duplicated keys are covered too.
-/
namespace ImmixGc.Guarantees
open Source Foundation

/-- The counters of a table, also in the middle of a call of `deleteIf`. -/
structure Counted (table : Hash) : Prop where
  capacity : Capacity table.mask
  occupied : countSlots (fun cell => !cell.isFree) (cells table) (table.mask + 1) ≤ table.used
  deleted : table.deleted = countSlots Cell.isTomb (cells table) (table.mask + 1)
  load : 4 * table.used ≤ 3 * (table.mask + 1)

/-- The counters between two calls. -/
structure Balanced (table : Hash) : Prop where
  counted : Counted table
  tombs : 4 * table.deleted < table.mask + 1

theorem Counted.hasFree {table : Hash} (counted : Counted table) : HasFree table := by
  have occupied := counted.occupied
  have load := counted.load
  exact hasFree_of_count (by omega)

/-- A probing loop ends within `mask + 1` steps, wherever it starts. -/
def ProbeEnds (stop : Entry → Bool) (table : Hash) (start : Nat) : Prop :=
  ∃ n < table.mask + 1, Hash.probe stop table.entries table.mask (table.mask + 1) start 1 =
    .ok ((start + triangular n) % (table.mask + 1))

/-- The probe from `start` visits every slot within `mask + 1` steps, and both loops end. -/
structure ProbesEnd (table : Hash) (start : Nat) : Prop where
  visits : ∀ slot < table.mask + 1,
    ∃ n < table.mask + 1, (start + triangular n) % (table.mask + 1) = slot
  insert : ∀ key, ProbeEnds (fun entry => entry.status != .allocated || entry.key == key) table start
  search : ∀ key, ProbeEnds (fun entry => entry.status == .free || entry.key == key) table start

theorem probeEnds {stop : Entry → Bool} {table : Hash} (capacity : Capacity table.mask)
    (room : HasFree table) (stops : ∀ entry, entry.status = .free → stop entry = true)
    (start : Nat) : ProbeEnds stop table start := by
  obtain ⟨bits, -, small, size⟩ := capacity
  obtain ⟨slot, bound, free⟩ := room
  have mask : table.mask = 2 ^ bits - 1 := by omega
  obtain ⟨k, hk, hslot⟩ := triangular_covers bits start slot (size ▸ bound)
  obtain ⟨n, hn, hprobe, -, -⟩ := probe_finds stop table.entries small start (table.mask + 1) 0 start
    (by simp [triangular]) ⟨k, by omega, by
      rw [Nat.zero_add, hslot]
      exact stops _ (cellOf_eq_free.mp free)⟩
  rw [Nat.zero_add, Nat.zero_add, ← mask, ← size] at hprobe
  exact ⟨n, hn, hprobe⟩

theorem Counted.probesEnd {table : Hash} (counted : Counted table) (start : Nat) :
    ProbesEnd table start := by
  refine ⟨fun slot bound => ?_, fun key => ?_, fun key => ?_⟩
  · obtain ⟨bits, -, -, size⟩ := counted.capacity
    rw [size] at bound ⊢
    exact triangular_covers bits start slot bound
  · refine probeEnds counted.capacity counted.hasFree (fun entry free => ?_) start
    rw [free]
    rfl
  · refine probeEnds counted.capacity counted.hasFree (fun entry free => ?_) start
    rw [free]
    rfl

/-! ## Rehashing -/

/-- A table under construction by the rehash loop, `index` old slots done. -/
structure RehashCounted (old : Nat → Cell Nat Nat) (index : Nat) (table : Hash) : Prop where
  capacity : Capacity table.mask
  occupied : countSlots (fun cell => !cell.isFree) (cells table) (table.mask + 1) ≤ table.used
  moved : table.used = countSlots Cell.isFull old index
  noTombs : countSlots Cell.isTomb (cells table) (table.mask + 1) = 0
  deleted : table.deleted = 0

/-- One more binding: `used` grows even when the key is already in the new table. -/
theorem rehashCounted_insert {old : Nat → Cell Nat Nat} {index oldCapacity : Nat} {self : Hash}
    {key value : Nat} (built : RehashCounted old index self) (inside : index < oldCapacity)
    (here : old index = .full key value)
    (fits : countSlots Cell.isFull old oldCapacity < self.mask + 1) :
    ∃ slot, Hash.lookupForInsert self key = .ok slot ∧
      RehashCounted old (index + 1) { self with
        entries := store self.entries slot ⟨.allocated, key, value⟩
        used := self.used + 1 } := by
  have fewer := countSlots_mono Cell.isFull old (Nat.le_of_lt inside)
  have moved := built.moved
  have occupiedLe := built.occupied
  obtain ⟨slot, lookup, bound, -⟩ :=
    lookupForInsert_spec built.capacity (hasFree_of_count (by omega)) key
  obtain ⟨occupied, tombs⟩ := count_setSlot_full (cells self) key value bound
  have content : cells { self with
      entries := store self.entries slot ⟨.allocated, key, value⟩, used := self.used + 1 } =
      setSlot (cells self) slot (.full key value) := cells_store self slot _
  refine ⟨slot, lookup, built.capacity, ?_, ?_, ?_, built.deleted⟩
  · rw [content, occupied]
    dsimp only
    split <;> omega
  · rw [countSlots_succ, here, ← moved]
    rfl
  · have none := built.noTombs
    rw [content]
    dsimp only
    omega

theorem rehashCounted_skip {old : Nat → Cell Nat Nat} {index : Nat} {self : Hash}
    (built : RehashCounted old index self) (here : (old index).isFull = false) :
    RehashCounted old (index + 1) self := by
  refine ⟨built.capacity, built.occupied, ?_, built.noTombs, built.deleted⟩
  rw [countSlots_succ, here, built.moved]
  rfl

theorem rehash_counted (entries : Nat → Entry) (oldCapacity count index : Nat) (self : Hash)
    (total : index + count = oldCapacity)
    (fits : countSlots Cell.isFull (fun s => cellOf (entries s)) oldCapacity < self.mask + 1)
    (built : RehashCounted (fun s => cellOf (entries s)) index self) :
    ∃ table, Hash.rehash entries count index self = .ok table ∧ table.mask = self.mask ∧
      RehashCounted (fun s => cellOf (entries s)) oldCapacity table := by
  induction count generalizing index self with
  | zero => exact ⟨self, rfl, rfl, by rw [← total]; exact built⟩
  | succ count ih =>
    rw [Hash.rehash]
    by_cases allocated : (entries index).status = .allocated
    · rw [if_pos allocated]
      have here : cellOf (entries index) = .full (entries index).key (entries index).value := by
        rw [cellOf_eq_full, ← allocated]
      obtain ⟨slot, lookup, next⟩ := rehashCounted_insert built (by omega) here fits
      obtain ⟨table, run, mask, done⟩ := ih (index + 1) _ (by omega) (by exact fits) next
      exact ⟨table, by rw [lookup]; exact run, mask, done⟩
    · rw [if_neg allocated]
      have here : (cellOf (entries index)).isFull = false := by
        cases h : cellOf (entries index) with
        | free => rfl
        | full k v => exact absurd (by rw [cellOf_eq_full.mp h]) allocated
        | tomb k => rfl
      exact ih (index + 1) self (by omega) fits (rehashCounted_skip built here)

/-- `resize` ends whenever the bindings fill at most three quarters of the requested
capacity, also when that is smaller than the current one. -/
theorem resize_counted (self : Hash) (capacity : Nat)
    (fits : 4 * countSlots Cell.isFull (cells self) (self.mask + 1) ≤ 3 * max 8 capacity) :
    (∃ table, Hash.resize self capacity = .ok table ∧ Balanced table ∧ capacity ≤ table.mask + 1 ∧
      table.used = countSlots Cell.isFull (cells self) (self.mask + 1) ∧ table.deleted = 0) ∨
    Hash.resize self capacity = .error callocFailed := by
  obtain ⟨bits, low, high, enough, size⟩ := newCapacityFor_spec capacity
  simp only [Hash.resize]
  rcases calloc_cases (Hash.newCapacityFor capacity) with ⟨small, success⟩ | failure
  · left
    have below : 2 ^ bits < 2 ^ 60 := by
      simp only [size, sizeofEntry, sizeModulus] at small
      omega
    have eight : 2 ^ 3 ≤ 2 ^ bits := Nat.pow_le_pow_right (by decide) low
    have mask : Hash.newCapacityFor capacity - 1 + 1 = 2 ^ bits := by omega
    have empty := rehashed_empty (cells self) (Hash.newCapacityFor capacity - 1)
      ⟨bits, low, high, mask⟩
    have built : RehashCounted (cells self) 0 _ :=
      ⟨empty.capacity, Nat.le_of_eq empty.used.symm, empty.moved, empty.noTombs, empty.deleted⟩
    obtain ⟨table, run, sameMask, done⟩ := rehash_counted self.entries
      (self.mask + 1) (self.mask + 1) 0 _ (by omega)
      (by
        change countSlots Cell.isFull (cells self) (self.mask + 1) <
          Hash.newCapacityFor capacity - 1 + 1
        omega) built
    have sameSize : table.mask + 1 = 2 ^ bits := by rw [sameMask]; exact mask
    have moved : table.used = countSlots Cell.isFull (cells self) (self.mask + 1) := done.moved
    have none := done.deleted
    refine ⟨table, by rw [success]; exact run,
      ⟨⟨done.capacity, done.occupied, ?_, by omega⟩, by omega⟩, by omega, moved, none⟩
    rw [none, done.noTombs]
  · exact Or.inr (by rw [failure]; rfl)

/-! ## One call -/

/-- Allocated slots and tombstones are not free. -/
theorem Counted.full_add_tombs {table : Hash} (counted : Counted table) :
    countSlots Cell.isFull (cells table) (table.mask + 1) + table.deleted ≤ table.used := by
  have occupied := counted.occupied
  rw [countSlots_occupied] at occupied
  have deleted := counted.deleted
  omega

theorem clearTombstones_counted {table : Hash} (counted : Counted table) :
    (∃ table', Hash.clearTombstones table = .ok table' ∧ Balanced table') ∨
    Hash.clearTombstones table = .error callocFailed := by
  have eight := counted.capacity.eight_dvd
  have full := counted.full_add_tombs
  have load := counted.load
  rw [Hash.clearTombstones]
  by_cases many : table.deleted ≥ (table.mask + 1) / 4
  · rw [if_pos many]
    rcases resize_counted table table.used (by omega) with ⟨table', run, balanced, -⟩ | failed
    · exact Or.inl ⟨table', run, balanced⟩
    · exact Or.inr failed
  · rw [if_neg many]
    exact Or.inl ⟨table, rfl, counted, by omega⟩

/-- An allocated slot becomes a tombstone. -/
theorem Counted.bury {table : Hash} (counted : Counted table) {slot : Nat}
    (bound : slot < table.mask + 1) (allocated : (table.entries slot).status = .allocated) :
    Counted { table with
      entries := store table.entries slot { table.entries slot with status := .deleted }
      deleted := table.deleted + 1 } := by
  have content : cells { table with
      entries := store table.entries slot { table.entries slot with status := .deleted }
      deleted := table.deleted + 1 } =
      setSlot (cells table) slot (.tomb (table.entries slot).key) := cells_store table slot _
  have before : cells table slot = .full (table.entries slot).key (table.entries slot).value := by
    rw [cells, cellOf_eq_full, ← allocated]
  have occupied := countSlots_set (fun cell => !cell.isFree) (cells table)
    (.tomb (table.entries slot).key) bound
  have tombs := countSlots_set Cell.isTomb (cells table) (.tomb (table.entries slot).key) bound
  rw [before] at occupied tombs
  have fullTomb : (Cell.full (table.entries slot).key (table.entries slot).value).isTomb = false := rfl
  have tombTomb : (Cell.tomb (table.entries slot).key : Cell Nat Nat).isTomb = true := rfl
  have fullFree : (Cell.full (table.entries slot).key (table.entries slot).value).isFree = false := rfl
  have tombFree : (Cell.tomb (table.entries slot).key : Cell Nat Nat).isFree = false := rfl
  simp only [fullTomb, tombTomb, fullFree, tombFree, Bool.not_false, if_true, Bool.false_eq_true,
    if_false] at occupied tombs
  have occupiedLe := counted.occupied
  have deleted := counted.deleted
  refine ⟨counted.capacity, ?_, ?_, counted.load⟩
  · rw [content]
    dsimp only
    omega
  · rw [content]
    dsimp only
    omega

/-- Filling the slot that an insertion stops at. -/
theorem Counted.fill {table : Hash} (counted : Counted table) {slot : Nat}
    (key value used deleted : Nat) (bound : slot < table.mask + 1)
    (load : 4 * used ≤ 3 * (table.mask + 1))
    (occupied : table.used + (if (cells table slot).isFree then 1 else 0) ≤ used)
    (tombs : deleted + (if (cells table slot).isTomb then 1 else 0) = table.deleted) :
    Counted { table with
      entries := store table.entries slot ⟨.allocated, key, value⟩
      used := used
      deleted := deleted } := by
  have content : cells { table with
      entries := store table.entries slot ⟨.allocated, key, value⟩, used := used, deleted := deleted } =
      setSlot (cells table) slot (.full key value) := cells_store table slot _
  obtain ⟨counts, tombCounts⟩ := count_setSlot_full (cells table) key value bound
  have occupiedLe := counted.occupied
  have deletedEq := counted.deleted
  refine ⟨counted.capacity, ?_, ?_, load⟩
  · rw [content, counts]
    dsimp only
    omega
  · rw [content]
    dsimp only
    omega

theorem insert_balanced {table : Hash} (key value : Nat) (balanced : Balanced table) :
    (∃ table', Hash.insert table key value = .ok table' ∧ Balanced table') ∨
    Hash.insert table key value = .error callocFailed := by
  obtain ⟨counted, few⟩ := balanced
  obtain ⟨slot, lookup, bound, -⟩ := lookupForInsert_spec counted.capacity counted.hasFree key
  have load := counted.load
  simp only [Hash.insert, lookup, ok_bind]
  cases status : (table.entries slot).status with
  | allocated =>
    left
    refine ⟨_, rfl, ?_, few⟩
    have before : cells table slot = .full (table.entries slot).key (table.entries slot).value := by
      rw [cells, cellOf_eq_full, ← status]
    exact counted.fill _ _ _ _ bound load (by simp [before, Cell.isFree]) (by simp [before, Cell.isTomb])
  | free =>
    have before : cells table slot = .free := cellOf_eq_free.mpr status
    dsimp only
    split
    · next full =>
      have live := counted.full_add_tombs
      have eight := counted.capacity.eight_dvd
      have twice : sizeMul table.used 2 = table.used * 2 := by
        obtain ⟨bits, -, small, size⟩ := counted.capacity
        have := Nat.pow_le_pow_right (n := 2) (by decide) small
        refine Nat.mod_eq_of_lt ?_
        simp only [sizeModulus]
        omega
      rw [twice]
      rcases resize_counted table (table.used * 2) (by omega) with
        ⟨table', run, balanced', enough, used, none⟩ | failed
      · left
        obtain ⟨slot', lookup', bound', -⟩ :=
          lookupForInsert_spec balanced'.counted.capacity balanced'.counted.hasFree key
        have notTomb : (cells table' slot').isTomb = false := by
          by_contra tomb
          have := countSlots_pos Cell.isTomb (cells table') bound' (by simpa using tomb)
          have := balanced'.counted.deleted
          omega
        have one : (if (cells table' slot').isFree then 1 else 0) ≤ 1 := by split <;> omega
        have filled := balanced'.counted.fill key value (table'.used + 1) table'.deleted
          bound' (by omega) (by omega) (by simp [notTomb])
        exact ⟨_, by simp only [run, lookup', ok_bind], filled, balanced'.tombs⟩
      · exact Or.inr (by rw [failed]; rfl)
    · next room =>
      left
      refine ⟨_, rfl, ?_, few⟩
      refine counted.fill _ _ _ _ bound ?_ (by simp [before, Cell.isFree]) (by simp [before, Cell.isTomb])
      have eight := counted.capacity.eight_dvd
      omega
  | deleted =>
    left
    have before : cells table slot = .tomb (table.entries slot).key := by
      rw [cells, cellOf_eq_tomb]
      exact ⟨status, rfl⟩
    have positive : 0 < table.deleted := by
      rw [counted.deleted]
      exact countSlots_pos _ _ bound (by rw [before]; rfl)
    have one : sizeSub table.deleted 1 = table.deleted - 1 := by
      obtain ⟨bits, -, small, size⟩ := counted.capacity
      have := Nat.pow_le_pow_right (n := 2) (by decide) small
      refine sizeSub_eq positive ?_
      simp only [sizeModulus]
      omega
    refine ⟨_, rfl, ?_, ?_⟩
    · rw [one]
      refine counted.fill _ _ _ _ bound load (by simp [before, Cell.isFree]) ?_
      simp only [before, Cell.isTomb, if_true]
      omega
    · rw [one]
      dsimp only
      omega

theorem create_balanced (capacity : Nat) :
    (∃ table, Hash.create capacity = .ok table ∧ Balanced table) ∨
    Hash.create capacity = .error callocFailed := by
  obtain ⟨bits, low, high, -, size⟩ := newCapacityFor_spec capacity
  simp only [Hash.create]
  rcases calloc_cases (Hash.newCapacityFor capacity) with ⟨-, success⟩ | failure
  · left
    have positive : 0 < 2 ^ bits := Nat.two_pow_pos bits
    have built := rehashed_empty (fun _ => Cell.free) (Hash.newCapacityFor capacity - 1)
      ⟨bits, low, high, by omega⟩
    exact ⟨_, by rw [success]; rfl, ⟨built.capacity, Nat.le_of_eq built.used.symm,
      built.noTombs.symm, Nat.zero_le _⟩, Nat.succ_pos _⟩
  · exact Or.inr (by rw [failure]; rfl)

theorem delete_balanced {table : Hash} (key : Nat) (balanced : Balanced table) :
    (∃ value table', Hash.delete table key = .ok (value, table') ∧ Balanced table') ∨
    Hash.delete table key = .error callocFailed := by
  have counted := balanced.counted
  obtain ⟨slot, lookup, bound, -⟩ := lookup_spec counted.capacity counted.hasFree key
  simp only [Hash.delete, lookup, ok_bind]
  by_cases allocated : (table.entries slot).status = .allocated
  · rw [if_pos allocated]
    rcases clearTombstones_counted (counted.bury bound allocated) with ⟨table', run, done⟩ | failed
    · exact Or.inl ⟨_, table', by rw [run]; rfl, done⟩
    · exact Or.inr (by rw [failed]; rfl)
  · rw [if_neg allocated]
    exact Or.inl ⟨_, table, rfl, balanced⟩

theorem search_balanced {table : Hash} (key : Nat) (balanced : Balanced table) :
    ∃ value, Hash.search table key = .ok value := by
  have counted := balanced.counted
  obtain ⟨slot, lookup, -, -⟩ := lookup_spec counted.capacity counted.hasFree key
  exact ⟨_, by rw [Hash.search, lookup]; rfl⟩

/-- The loop of `deleteIf` keeps the counters; its tombstones are cleared only at the end. -/
theorem deleteIfLoop_counted {σ : Type} (callback : Nat → Nat → σ → Result (Bool × σ))
    (total : ∀ key value state, ∃ answer, callback key value state = .ok answer)
    (count index : Nat) (table : Hash) (state : σ) (counted : Counted table)
    (inside : index + count ≤ table.mask + 1) :
    ∃ table' state', Hash.deleteIfLoop callback count index table state = .ok (table', state') ∧
      Counted table' := by
  induction count generalizing index table state with
  | zero => exact ⟨table, state, rfl, counted⟩
  | succ count ih =>
    rw [Hash.deleteIfLoop]
    by_cases allocated : (table.entries index).status = .allocated
    · rw [if_pos allocated]
      obtain ⟨⟨remove, next⟩, answer⟩ :=
        total (table.entries index).key (table.entries index).value state
      rw [answer, ok_bind]
      cases remove with
      | true => exact ih (index + 1) _ next (counted.bury (by omega) allocated) (by dsimp only; omega)
      | false => exact ih (index + 1) table next counted (by omega)
    · rw [if_neg allocated]
      exact ih (index + 1) table state counted (by omega)

section Runs
variable {σ : Type}

theorem callTable_balanced {table : Hash} (call : TableCall σ) (state : σ) (balanced : Balanced table) :
    (∃ answer table' state', callTable call table state = .ok (answer, table', state') ∧
      Balanced table') ∨
    callTable call table state = .error callocFailed := by
  cases call with
  | insert key value =>
    rcases insert_balanced key value balanced with ⟨table', run, done⟩ | failed
    · exact Or.inl ⟨.done, table', state, by rw [callTable, run]; rfl, done⟩
    · exact Or.inr (by rw [callTable, failed]; rfl)
  | delete key =>
    rcases delete_balanced key balanced with ⟨value, table', run, done⟩ | failed
    · exact Or.inl ⟨.value value, table', state, by rw [callTable, run]; rfl, done⟩
    · exact Or.inr (by rw [callTable, failed]; rfl)
  | search key =>
    obtain ⟨value, run⟩ := search_balanced key balanced
    exact Or.inl ⟨.value value, table, state, by rw [callTable, run]; rfl, balanced⟩
  | deleteIf callback =>
    obtain ⟨swept, final, looped, counted⟩ := deleteIfLoop_counted (recording callback)
      (fun key value state => ⟨_, rfl⟩) (table.mask + 1) 0 table (state, []) balanced.counted (by omega)
    simp only [callTable, Hash.deleteIf, looped, ok_bind]
    rcases clearTombstones_counted counted with ⟨table', run, done⟩ | failed
    · exact Or.inl ⟨_, table', final.1, by rw [run]; rfl, done⟩
    · exact Or.inr (by rw [failed]; rfl)

theorem runTable_balanced (calls : List (TableCall σ)) {table : Hash} (state : σ)
    (balanced : Balanced table) :
    (∃ answers table' state', runTable calls table state = .ok (answers, table', state') ∧
      Balanced table') ∨
    runTable calls table state = .error callocFailed := by
  induction calls generalizing table state with
  | nil => exact Or.inl ⟨[], table, state, rfl, balanced⟩
  | cons call calls ih =>
    rcases callTable_balanced call state balanced with ⟨answer, table', state', called, next⟩ | failed
    · rcases ih state' next with ⟨answers, table'', state'', run, done⟩ | failed
      · exact Or.inl ⟨answer :: answers, table'', state'', by
          simp only [runTable, called, ok_bind, run], done⟩
      · exact Or.inr (by simp only [runTable, called, ok_bind, failed, error_bind])
    · exact Or.inr (by rw [runTable, failed]; rfl)

/-- Every run of calls ends, in a table whose counters are balanced and in which the
probing loops end within `mask + 1` steps from every start, unless `calloc` fails. -/
theorem probing_terminates (capacity : Nat) (calls : List (TableCall σ)) (state : σ) :
    (∃ answers table state', (do
        let table ← Hash.create capacity
        runTable calls table state) = .ok (answers, table, state') ∧
      Balanced table ∧ 8 ≤ table.mask + 1 ∧ ∀ start, ProbesEnd table start) ∨
    (do
      let table ← Hash.create capacity
      runTable calls table state) = .error callocFailed := by
  rcases create_balanced capacity with ⟨table, created, balanced⟩ | failed
  · rw [created, ok_bind]
    rcases runTable_balanced calls state balanced with ⟨answers, table', state', run, done⟩ | failed
    · refine Or.inl ⟨answers, table', state', run, done, ?_, done.counted.probesEnd⟩
      have := done.counted.capacity.eight_dvd
      omega
    · exact Or.inr failed
  · exact Or.inr (by rw [failed]; rfl)

end Runs

end ImmixGc.Guarantees
