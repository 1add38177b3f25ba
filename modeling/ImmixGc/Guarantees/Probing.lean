import ImmixGc.Foundation.OpenAddressing
import ImmixGc.Foundation.Triangular
import ImmixGc.Source.Hash
import Mathlib.Logic.Function.Basic

/-!
# Single calls on the finalizer table

The two probing loops of hash.c end at the first slot of the triangular sequence where
they may stop, so the table is an instance of open addressing with tombstones. Each
operation gets one lemma: from a well-formed table it returns a well-formed table with
the expected mapping, or aborts because `calloc` failed.
-/
namespace ImmixGc.Guarantees
open Source Foundation

/-- What a slot says about keys. -/
def cellOf (entry : Entry) : Cell Nat Nat :=
  match entry.status with
  | .free => .free
  | .allocated => .full entry.key entry.value
  | .deleted => .tomb entry.key

/-- The slots that the loops of hash.c read for `key`, in order. -/
def slotAt (mask : Nat) (key : Nat) (n : Nat) : Nat :=
  (hashOf key + triangular n) % (mask + 1)

def cells (self : Hash) : Nat → Cell Nat Nat := fun slot => cellOf (self.entries slot)

@[simp] theorem cellOf_zero : cellOf Entry.zero = .free := rfl

@[simp] theorem cellOf_allocated (key value : Nat) :
    cellOf ⟨.allocated, key, value⟩ = .full key value := rfl

theorem cellOf_eq_full {entry : Entry} {key value : Nat} :
    cellOf entry = .full key value ↔ entry = ⟨.allocated, key, value⟩ := by
  obtain ⟨status, k, v⟩ := entry
  cases status <;> simp [cellOf]

theorem cellOf_eq_tomb {entry : Entry} {key : Nat} :
    cellOf entry = .tomb key ↔ entry.status = .deleted ∧ entry.key = key := by
  obtain ⟨status, k, v⟩ := entry
  cases status <;> simp [cellOf]

theorem cellOf_eq_free {entry : Entry} : cellOf entry = .free ↔ entry.status = .free := by
  obtain ⟨status, k, v⟩ := entry
  cases status <;> simp [cellOf]

theorem stopsInsert_cellOf (entry : Entry) (key : Nat) :
    (entry.status != .allocated || entry.key == key) = (cellOf entry).stopsInsert key := by
  obtain ⟨status, k, v⟩ := entry
  cases status <;> simp [cellOf, Cell.stopsInsert]
  exact beq_eq_decide k key

theorem stopsSearch_cellOf (entry : Entry) (key : Nat) :
    (entry.status == .free || entry.key == key) = (cellOf entry).stopsSearch key := by
  obtain ⟨status, k, v⟩ := entry
  cases status <;> simp [cellOf, Cell.stopsSearch]
  all_goals exact beq_eq_decide k key

theorem cells_store (self : Hash) (slot : Nat) (entry : Entry) :
    (fun s => cellOf (store self.entries slot entry s)) =
      setSlot (cells self) slot (cellOf entry) := by
  funext s
  by_cases hs : s = slot
  · simp [hs, setSlot]
  · simp [setSlot, hs, store_other, cells]

/-! ## The loops -/

section Probe
variable (stop : Entry → Bool) (entries : Nat → Entry) {bits : Nat}

/-- The index `i` runs through `start + triangular n`; its wrap at `2 ^ 64` is harmless
because the capacity divides `2 ^ 64`. -/
theorem probe_finds (small : bits ≤ 63) (start : Nat) (fuel n i : Nat)
    (index : i % 2 ^ bits = (start + triangular n) % 2 ^ bits)
    (found : ∃ k < fuel, stop (entries ((start + triangular (n + k)) % 2 ^ bits)) = true) :
    ∃ k < fuel, Hash.probe stop entries (2 ^ bits - 1) fuel i (n + 1) =
        .ok ((start + triangular (n + k)) % 2 ^ bits) ∧
      stop (entries ((start + triangular (n + k)) % 2 ^ bits)) = true ∧
      ∀ m < k, stop (entries ((start + triangular (n + m)) % 2 ^ bits)) = false := by
  induction fuel generalizing n i with
  | zero =>
    obtain ⟨k, hk, -⟩ := found
    omega
  | succ fuel ih =>
    have slot : i &&& (2 ^ bits - 1) = (start + triangular n) % 2 ^ bits := by
      rw [Nat.and_two_pow_sub_one_eq_mod, index]
    rw [Hash.probe, slot]
    by_cases here : stop (entries ((start + triangular n) % 2 ^ bits)) = true
    · exact ⟨0, by omega, by simp [here], here, fun m hm => by omega⟩
    · have next : sizeAdd i (n + 1) % 2 ^ bits = (start + triangular (n + 1)) % 2 ^ bits := by
        have hdvd : 2 ^ bits ∣ sizeModulus := Nat.pow_dvd_pow 2 (by omega)
        rw [sizeAdd, Nat.mod_mod_of_dvd _ hdvd, triangular, ← Nat.add_assoc start]
        exact Nat.ModEq.add_right (n + 1) index
      obtain ⟨k, hk, hstop⟩ := found
      have later : k ≠ 0 := by
        rintro rfl
        exact here hstop
      have shift : ∀ m, triangular (n + 1 + m) = triangular (n + (m + 1)) :=
        fun m => congrArg triangular (by omega)
      obtain ⟨m, hm, hprobe, hstop', before⟩ := ih (n + 1) (sizeAdd i (n + 1)) next
        ⟨k - 1, by omega, by rw [shift, Nat.sub_add_cancel (by omega)]; exact hstop⟩
      rw [shift] at hprobe hstop'
      refine ⟨m + 1, by omega, by rw [if_neg here]; exact hprobe, hstop', fun l hl => ?_⟩
      cases l with
      | zero => simpa using here
      | succ l => rw [← shift]; exact before l (by omega)

end Probe

/-- The capacity is a power of two that `calloc` can serve. -/
def Capacity (mask : Nat) : Prop := ∃ bits, 3 ≤ bits ∧ bits ≤ 63 ∧ mask + 1 = 2 ^ bits

theorem Capacity.covers {mask : Nat} (capacity : Capacity mask) (key : Nat) {slot : Nat}
    (bound : slot < mask + 1) : ∃ n ≤ mask, slotAt mask key n = slot := by
  obtain ⟨bits, -, -, size⟩ := capacity
  obtain ⟨n, hn, hslot⟩ := triangular_covers bits (hashOf key) slot (size ▸ bound)
  exact ⟨n, by omega, by rw [slotAt, size]; exact hslot⟩

theorem slotAt_lt (mask : Nat) (key : Nat) (n : Nat) : slotAt mask key n < mask + 1 :=
  Nat.mod_lt _ (Nat.succ_pos mask)

/-- A probing loop ends at the first slot where it may, when there is one at all. -/
theorem probe_spec (stop : Entry → Bool) (entries : Nat → Entry) {mask slot : Nat}
    (capacity : Capacity mask) (key : Nat) (bound : slot < mask + 1)
    (stops : stop (entries slot) = true) :
    ∃ n ≤ mask, Hash.probe stop entries mask (mask + 1) (hashOf key) 1 =
        .ok (slotAt mask key n) ∧
      stop (entries (slotAt mask key n)) = true ∧
      ∀ m < n, stop (entries (slotAt mask key m)) = false := by
  obtain ⟨k, hk, hslot⟩ := capacity.covers key bound
  obtain ⟨bits, -, small, size⟩ := capacity
  have mask_eq : mask = 2 ^ bits - 1 := by omega
  have found := probe_finds stop entries small (hashOf key) (mask + 1) 0 (hashOf key) (by
      simp [triangular]) ⟨k, by omega, by
        rw [← hslot, slotAt, size] at stops
        simpa using stops⟩
  obtain ⟨n, hn, hprobe, hstop, before⟩ := found
  simp only [Nat.zero_add] at hprobe hstop before
  refine ⟨n, by omega, ?_, ?_, ?_⟩
  · rw [← mask_eq] at hprobe
    simpa only [slotAt, size] using hprobe
  · simpa only [slotAt, size] using hstop
  · simpa only [slotAt, size] using before

/-! ## Well-formed tables -/

/-- The invariant of a table between two calls. -/
structure WellFormed (table : Hash) : Prop where
  capacity : Capacity table.mask
  consistent : Consistent (slotAt table.mask) (table.mask + 1) (cells table)
  used : table.used = countSlots (fun cell => !cell.isFree) (cells table) (table.mask + 1)
  deleted : table.deleted = countSlots Cell.isTomb (cells table) (table.mask + 1)
  load : 4 * table.used ≤ 3 * (table.mask + 1)

/-- The table holds exactly the bindings of `map`. -/
def Represents (self : Hash) (map : Nat → Option Nat) : Prop :=
  ∀ key value, map key = some value ↔ Holds (self.mask + 1) (cells self) key value

def HasFree (self : Hash) : Prop := ∃ slot < self.mask + 1, cells self slot = .free

theorem hasFree_of_count {self : Hash}
    (less : countSlots (fun cell => !cell.isFree) (cells self) (self.mask + 1) < self.mask + 1) :
    HasFree self := by
  obtain ⟨slot, bound, free⟩ := exists_slot_of_count_lt _ less
  refine ⟨slot, bound, ?_⟩
  cases h : cells self slot <;> simp_all [Cell.isFree]

theorem WellFormed.hasFree {self : Hash} (wellFormed : WellFormed self) : HasFree self := by
  have load := wellFormed.load
  have used := wellFormed.used
  exact hasFree_of_count (by omega)

theorem lookup_spec {self : Hash} (capacity : Capacity self.mask) (room : HasFree self)
    (key : Nat) :
    ∃ slot, Hash.lookup self key = .ok slot ∧ slot < self.mask + 1 ∧
      FirstStop (Cell.stopsSearch key) (slotAt self.mask key) (cells self) slot := by
  obtain ⟨free, bound, hfree⟩ := room
  obtain ⟨n, -, hprobe, hstop, before⟩ := probe_spec
    (fun entry => entry.status == .free || entry.key == key) self.entries capacity key bound (by
      rw [cellOf_eq_free.mp hfree]; rfl)
  refine ⟨slotAt self.mask key n, hprobe, slotAt_lt _ _ _, n, rfl, ?_, fun m hm => ?_⟩
  · rw [cells, ← stopsSearch_cellOf]
    exact hstop
  · rw [cells, ← stopsSearch_cellOf]
    exact before m hm

theorem lookupForInsert_spec {self : Hash} (capacity : Capacity self.mask) (room : HasFree self)
    (key : Nat) :
    ∃ slot, Hash.lookupForInsert self key = .ok slot ∧ slot < self.mask + 1 ∧
      FirstStop (Cell.stopsInsert key) (slotAt self.mask key) (cells self) slot := by
  obtain ⟨free, bound, hfree⟩ := room
  obtain ⟨n, -, hprobe, hstop, before⟩ := probe_spec
    (fun entry => entry.status != .allocated || entry.key == key) self.entries capacity key bound (by
      rw [cellOf_eq_free.mp hfree]; rfl)
  refine ⟨slotAt self.mask key n, hprobe, slotAt_lt _ _ _, n, rfl, ?_, fun m hm => ?_⟩
  · rw [cells, ← stopsInsert_cellOf]
    exact hstop
  · rw [cells, ← stopsInsert_cellOf]
    exact before m hm

/-! ## Resizing -/

theorem growCapacity_spec (capacity : Nat) (fuel bits : Nat)
    (enough : capacity ≤ 2 ^ (bits + fuel)) (low : 3 ≤ bits) (high : bits ≤ 63)
    (capped : capacity ≤ 2 ^ 63) :
    ∃ result, 3 ≤ result ∧ result ≤ 63 ∧ capacity ≤ 2 ^ result ∧
      Hash.growCapacity capacity fuel (2 ^ bits) = 2 ^ result := by
  induction fuel generalizing bits with
  | zero => exact ⟨bits, low, high, by simpa using enough, rfl⟩
  | succ fuel ih =>
    rw [Hash.growCapacity]
    by_cases less : 2 ^ bits < capacity
    · rw [if_pos less, ← Nat.pow_succ]
      have below : bits < 63 :=
        (Nat.pow_lt_pow_iff_right (a := 2) (by decide)).mp (Nat.lt_of_lt_of_le less capped)
      exact ih (bits + 1) (by rw [Nat.add_right_comm]; exact enough) (by omega) (by omega)
    · exact ⟨bits, low, high, by omega, if_neg less⟩

theorem newCapacityFor_spec (capacity : Nat) :
    ∃ bits, 3 ≤ bits ∧ bits ≤ 63 ∧ min capacity (2 ^ 63) ≤ 2 ^ bits ∧
      Hash.newCapacityFor capacity = 2 ^ bits := by
  have capped : (if capacity > maxSize then maxSize else capacity) = min capacity (2 ^ 63) := by
    rcases Nat.lt_or_ge maxSize capacity with above | below
    · rw [if_pos above]
      simp only [maxSize] at *
      omega
    · rw [if_neg (by omega)]
      simp only [maxSize] at *
      omega
  rw [Hash.newCapacityFor, capped]
  refine growCapacity_spec _ 64 3 ?_ (by decide) (by decide) (Nat.min_le_right _ _)
  exact Nat.le_trans (Nat.min_le_right _ _) (Nat.pow_le_pow_right (by decide) (by decide))

/-- A table under construction by the rehash loop, `index` old slots done. -/
structure Rehashed (old : Nat → Cell Nat Nat) (index : Nat) (table : Hash) : Prop where
  capacity : Capacity table.mask
  consistent : Consistent (slotAt table.mask) (table.mask + 1) (cells table)
  used : table.used = countSlots (fun cell => !cell.isFree) (cells table) (table.mask + 1)
  moved : table.used = countSlots Cell.isFull old index
  noTombs : countSlots Cell.isTomb (cells table) (table.mask + 1) = 0
  deleted : table.deleted = 0
  holds : ∀ key value, Holds (table.mask + 1) (cells table) key value ↔
    ∃ slot < index, old slot = .full key value

theorem rehashed_empty (old : Nat → Cell Nat Nat) (mask : Nat) (capacity : Capacity mask) :
    Rehashed old 0 { entries := fun _ => Entry.zero, mask := mask, used := 0, deleted := 0 } := by
  have empty : cells { entries := fun _ => Entry.zero, mask := mask, used := 0, deleted := 0 } =
      fun _ => .free := rfl
  have none : ∀ p : Cell Nat Nat → Bool, p .free = false →
      countSlots p (fun _ => Cell.free) (mask + 1) = 0 := by
    intro p hp
    simp [countSlots, hp]
  refine ⟨capacity, ?_, ?_, rfl, ?_, rfl, ?_⟩
  · rw [empty]
    exact Consistent.empty _ _
  · rw [empty]
    exact (none _ rfl).symm
  · rw [empty]
    exact none _ rfl
  · intro key value
    simp [Holds, empty]

/-- The effect on the counters of filling the slot an insertion stops at. -/
theorem count_setSlot_full (content : Nat → Cell Nat Nat) {slot capacity : Nat} (key value : Nat)
    (bound : slot < capacity) :
    countSlots (fun cell => !cell.isFree) (setSlot content slot (.full key value)) capacity =
        countSlots (fun cell => !cell.isFree) content capacity +
          (if (content slot).isFree then 1 else 0) ∧
      countSlots Cell.isTomb (setSlot content slot (.full key value)) capacity +
          (if (content slot).isTomb then 1 else 0) = countSlots Cell.isTomb content capacity := by
  have occupied := countSlots_set (fun cell => !cell.isFree) content (.full key value) bound
  have tombs := countSlots_set Cell.isTomb content (.full key value) bound
  cases h : content slot with
  | free => simp [h, Cell.isFree, Cell.isTomb] at occupied tombs ⊢; omega
  | full k v => simp [h, Cell.isFree, Cell.isTomb] at occupied tombs ⊢; omega
  | tomb k => simp [h, Cell.isFree, Cell.isTomb] at occupied tombs ⊢; omega

/-- The rehash loop moves one more binding. -/
theorem rehashed_insert {old : Nat → Cell Nat Nat} {index oldCapacity : Nat} {self : Hash}
    {key value : Nat} (built : Rehashed old index self)
    (unique : ∀ s t k v w, s < oldCapacity → t < oldCapacity →
      old s = .full k v → old t = .full k w → s = t)
    (inside : index < oldCapacity) (here : old index = .full key value)
    (fits : countSlots Cell.isFull old oldCapacity < self.mask + 1) :
    ∃ slot, Hash.lookupForInsert self key = .ok slot ∧
      Rehashed old (index + 1) { self with
        entries := store self.entries slot ⟨.allocated, key, value⟩
        used := self.used + 1 } := by
  have fewer := countSlots_mono Cell.isFull old (Nat.le_of_lt inside)
  have moved := built.moved
  have used := built.used
  obtain ⟨slot, lookup, bound, stop⟩ :=
    lookupForInsert_spec built.capacity (hasFree_of_count (by omega)) key
  have absent : Absent (self.mask + 1) (cells self) key := by
    intro w held
    obtain ⟨s, hs, es⟩ := (built.holds key w).mp held
    have := unique s index key w value (by omega) inside es here
    omega
  have notFull : ∀ k w, cells self slot ≠ .full k w := by
    intro k w full
    obtain ⟨n, -, hstop, -⟩ := stop
    rw [full] at hstop
    have : k = key := by simpa [Cell.stopsInsert] using hstop
    exact absent w ⟨slot, bound, this ▸ full⟩
  have notTomb : (cells self slot).isTomb = false := by
    by_contra tomb
    have := countSlots_pos Cell.isTomb (cells self) bound (by simpa using tomb)
    have := built.noTombs
    omega
  have free : (cells self slot).isFree = true := by
    cases h : cells self slot with
    | free => rfl
    | full k w => exact absurd h (notFull k w)
    | tomb k => rw [h] at notTomb; cases notTomb
  obtain ⟨occupied, tombs⟩ := count_setSlot_full (cells self) key value bound
  have content : cells { self with
      entries := store self.entries slot ⟨.allocated, key, value⟩, used := self.used + 1 } =
      setSlot (cells self) slot (.full key value) := cells_store self slot _
  refine ⟨slot, lookup, built.capacity, ?_, ?_, ?_, ?_, built.deleted, ?_⟩
  · rw [content]
    exact built.consistent.insert absent stop notFull
  · rw [content, occupied, free]
    simp [used]
  · rw [countSlots_succ, here, ← moved]
    rfl
  · have none := built.noTombs
    rw [notTomb] at tombs
    rw [content, ← none, ← tombs]
    rfl
  · intro k w
    rw [content, holds_setSlot_full bound (fun s hs _ w => fun h => absent w ⟨s, hs, h⟩)
      (fun k w h => absurd h (notFull k w)) k w, built.holds]
    constructor
    · rintro (⟨rfl, rfl⟩ | ⟨-, s, hs, es⟩)
      · exact ⟨index, by omega, here⟩
      · exact ⟨s, by omega, es⟩
    · rintro ⟨s, hs, es⟩
      rcases Nat.lt_succ_iff_lt_or_eq.mp hs with lt | rfl
      · by_cases same : k = key
        · subst same
          have := unique s index k w value (by omega) inside es here
          omega
        · exact Or.inr ⟨same, s, lt, es⟩
      · rw [here, Cell.full.injEq] at es
        exact Or.inl ⟨es.1.symm, es.2.symm⟩

/-- A slot that holds no binding is passed over. -/
theorem rehashed_skip {old : Nat → Cell Nat Nat} {index : Nat} {self : Hash}
    (built : Rehashed old index self) (here : (old index).isFull = false) :
    Rehashed old (index + 1) self := by
  refine ⟨built.capacity, built.consistent, built.used, ?_, built.noTombs, built.deleted, ?_⟩
  · rw [countSlots_succ, here, built.moved]
    rfl
  · intro key value
    rw [built.holds]
    constructor
    · rintro ⟨s, hs, es⟩
      exact ⟨s, by omega, es⟩
    · rintro ⟨s, hs, es⟩
      refine ⟨s, ?_, es⟩
      have : s ≠ index := by
        rintro rfl
        rw [es] at here
        cases here
      omega

theorem rehash_spec (entries : Nat → Entry) (oldCapacity count index : Nat) (self : Hash)
    (total : index + count = oldCapacity)
    (unique : ∀ s t k v w, s < oldCapacity → t < oldCapacity →
      cellOf (entries s) = .full k v → cellOf (entries t) = .full k w → s = t)
    (fits : countSlots Cell.isFull (fun s => cellOf (entries s)) oldCapacity < self.mask + 1)
    (built : Rehashed (fun s => cellOf (entries s)) index self) :
    ∃ table, Hash.rehash entries count index self = .ok table ∧ table.mask = self.mask ∧
      Rehashed (fun s => cellOf (entries s)) oldCapacity table := by
  induction count generalizing index self with
  | zero => exact ⟨self, rfl, rfl, by rw [← total]; exact built⟩
  | succ count ih =>
    rw [Hash.rehash]
    by_cases allocated : (entries index).status = .allocated
    · rw [if_pos allocated]
      have here : cellOf (entries index) = .full (entries index).key (entries index).value := by
        rw [cellOf_eq_full, ← allocated]
      obtain ⟨slot, lookup, next⟩ := rehashed_insert built unique (by omega) here fits
      obtain ⟨table, run, mask, done⟩ := ih (index + 1) _ (by omega) (by exact fits) next
      exact ⟨table, by rw [lookup]; exact run, mask, done⟩
    · rw [if_neg allocated]
      have here : (cellOf (entries index)).isFull = false := by
        cases h : cellOf (entries index) with
        | free => rfl
        | full k v => exact absurd (by rw [cellOf_eq_full.mp h]) allocated
        | tomb k => rfl
      exact ih (index + 1) self (by omega) fits (rehashed_skip built here)

def callocFailed : Stop := .abort "GC: calloc failed\n"

theorem calloc_cases (newCapacity : Nat) :
    (newCapacity * sizeofEntry < sizeModulus ∧
      Hash.calloc newCapacity = .ok (fun _ => Entry.zero)) ∨
    Hash.calloc newCapacity = .error callocFailed := by
  unfold Hash.calloc
  split
  · exact Or.inl ⟨by assumption, rfl⟩
  · exact Or.inr rfl

/-- What a successful `resize` leaves: the same bindings, without tombstones. -/
structure Resized (old : Hash) (capacity : Nat) (table : Hash) : Prop where
  wellFormed : WellFormed table
  deleted : table.deleted = 0
  used : table.used = countSlots Cell.isFull (cells old) (old.mask + 1)
  enough : capacity ≤ table.mask + 1
  atLeast : 8 ≤ table.mask + 1
  holds : ∀ key value, Holds (table.mask + 1) (cells table) key value ↔
    Holds (old.mask + 1) (cells old) key value

/-- `resize` succeeds whenever `calloc` does and the bindings fill at most three quarters
of the requested capacity; only a key that is held twice could get lost. -/
theorem resize_distinct {self : Hash} (capacity : Nat)
    (unique : ∀ s t key v w, s < self.mask + 1 → t < self.mask + 1 →
      cells self s = .full key v → cells self t = .full key w → s = t)
    (fits : 4 * countSlots Cell.isFull (cells self) (self.mask + 1) ≤ 3 * max 8 capacity) :
    (∃ table, Hash.resize self capacity = .ok table ∧ Resized self capacity table) ∨
    Hash.resize self capacity = .error callocFailed := by
  obtain ⟨bits, low, high, enough, size⟩ := newCapacityFor_spec capacity
  simp only [Hash.resize]
  rcases calloc_cases (Hash.newCapacityFor capacity) with ⟨small, success⟩ | failure
  · left
    have below : 2 ^ bits < 2 ^ 60 := by
      simp only [size, sizeofEntry, sizeModulus] at small
      omega
    have eight : 2 ^ 3 ≤ 2 ^ bits := Nat.pow_le_pow_right (by decide) low
    have mask : Hash.newCapacityFor capacity - 1 + 1 = 2 ^ bits := by omega
    have built := rehashed_empty (cells self) (Hash.newCapacityFor capacity - 1)
      ⟨bits, low, high, mask⟩
    obtain ⟨table, run, sameMask, done⟩ := rehash_spec self.entries
      (self.mask + 1) (self.mask + 1) 0 _ (by omega) unique
      (by
        change countSlots Cell.isFull (cells self) (self.mask + 1) <
          Hash.newCapacityFor capacity - 1 + 1
        omega) built
    have sameSize : table.mask + 1 = 2 ^ bits := by rw [sameMask]; exact mask
    have moved : table.used = countSlots Cell.isFull (cells self) (self.mask + 1) := done.moved
    refine ⟨table, by rw [success]; exact run, ⟨done.capacity, done.consistent, done.used, ?_, ?_⟩,
      done.deleted, moved, by omega, by omega, done.holds⟩
    · rw [done.deleted, done.noTombs]
    · omega
  · exact Or.inr (by rw [failure]; rfl)

theorem resize_spec {self : Hash} (capacity : Nat)
    (consistent : Consistent (slotAt self.mask) (self.mask + 1) (cells self))
    (fits : 4 * countSlots Cell.isFull (cells self) (self.mask + 1) ≤ 3 * max 8 capacity) :
    (∃ table, Hash.resize self capacity = .ok table ∧ Resized self capacity table) ∨
    Hash.resize self capacity = .error callocFailed :=
  resize_distinct capacity consistent.unique fits

/-! ## One call -/

theorem create_spec (capacity : Nat) :
    (∃ table, Hash.create capacity = .ok table ∧ WellFormed table ∧
      Represents table fun _ => none) ∨
    Hash.create capacity = .error callocFailed := by
  obtain ⟨bits, low, high, -, size⟩ := newCapacityFor_spec capacity
  simp only [Hash.create]
  rcases calloc_cases (Hash.newCapacityFor capacity) with ⟨-, success⟩ | failure
  · left
    have positive : 0 < 2 ^ bits := Nat.two_pow_pos bits
    have built := rehashed_empty (fun _ => Cell.free) (Hash.newCapacityFor capacity - 1)
      ⟨bits, low, high, by omega⟩
    refine ⟨_, by rw [success]; rfl, ⟨built.capacity, built.consistent, built.used, ?_, ?_⟩, ?_⟩
    · exact built.noTombs.symm
    · exact Nat.zero_le _
    · intro key value
      rw [built.holds]
      simp
  · exact Or.inr (by rw [failure]; rfl)

theorem search_spec {self : Hash} {map : Nat → Option Nat} (wellFormed : WellFormed self)
    (represents : Represents self map) (key : Nat) :
    Hash.search self key = .ok ((map key).getD null) := by
  obtain ⟨slot, lookup, bound, stop⟩ :=
    lookup_spec wellFormed.capacity wellFormed.hasFree key
  have found : ∀ value, self.entries slot = ⟨.allocated, key, value⟩ ↔ map key = some value := by
    intro value
    rw [represents, ← wellFormed.consistent.search_iff bound stop]
    exact cellOf_eq_full.symm
  rw [Hash.search, lookup]
  change Except.ok (if (self.entries slot).status = .allocated then (self.entries slot).value
    else null) = _
  cases h : map key with
  | some value => rw [(found value).mpr h]; rfl
  | none =>
    by_cases allocated : (self.entries slot).status = .allocated
    · -- the slot would hold the key
      obtain ⟨n, -, hstop, -⟩ := stop
      rw [cells, ← stopsSearch_cellOf, allocated] at hstop
      have own : (self.entries slot).key = key := by simpa using hstop
      have := (found (self.entries slot).value).mp (by rw [← allocated, ← own])
      rw [h] at this
      cases this
    · rw [if_neg allocated]
      rfl

/-- A tombstone stands before the slot of `key` on its probe sequence. -/
def Obstructed (self : Hash) (key : Nat) : Prop :=
  ∃ n ≤ self.mask, (self.entries (slotAt self.mask key n)).status = .allocated ∧
    (self.entries (slotAt self.mask key n)).key = key ∧
    ∃ m < n, (self.entries (slotAt self.mask key m)).status = .deleted

/-- Where an unobstructed insertion of a held key stops, and where any insertion stops. -/
theorem insert_slot {self : Hash} (wellFormed : WellFormed self) {key : Nat}
    (clear : ¬ Obstructed self key) {slot : Nat}
    (stop : FirstStop (Cell.stopsInsert key) (slotAt self.mask key) (cells self) slot)
    (notFull : ∀ k w, cells self slot ≠ .full k w) : Absent (self.mask + 1) (cells self) key := by
  rintro w ⟨s, hs, es⟩
  obtain ⟨m, hm, hstop, before⟩ := stop
  obtain ⟨n', hn', reach⟩ := wellFormed.capacity.covers key hs
  have hstop' : (cells self (slotAt self.mask key n')).stopsInsert key = true := by
    simp [reach, es, Cell.stopsInsert]
  have passed : m ≤ n' := by
    by_contra later
    rw [before n' (by omega)] at hstop'
    cases hstop'
  have early : m < n' := by
    rcases Nat.lt_or_eq_of_le passed with lt | rfl
    · exact lt
    · rw [← hm, reach] at notFull
      exact absurd es (notFull key w)
  cases h : cells self slot with
  | full k v => exact notFull k v h
  | free =>
    obtain ⟨k, hk, hstopK, beforeK⟩ := wellFormed.consistent.reached s key w hs es
    have : k ≤ m := by
      by_contra later
      have := beforeK m (by omega)
      rw [hm, h] at this
      cases this
    rcases Nat.lt_or_eq_of_le this with lt | rfl
    · have := before k lt
      rw [hk, es] at this
      simp [Cell.stopsInsert] at this
    · rw [← hm, hk, es] at h
      cases h
  | tomb k =>
    rw [← reach] at es
    have entry := cellOf_eq_full.mp es
    exact clear ⟨n', hn', by rw [entry], by rw [entry], m, early,
      (cellOf_eq_tomb.mp (hm ▸ h)).1⟩

theorem represents_fill {self table : Hash} {map : Nat → Option Nat} {slot : Nat}
    {key value : Nat} (represents : Represents self map) (mask : table.mask = self.mask)
    (content : cells table = setSlot (cells self) slot (.full key value))
    (bound : slot < self.mask + 1)
    (others : ∀ s < self.mask + 1, s ≠ slot → ∀ w, cells self s ≠ .full key w)
    (own : ∀ k w, cells self slot = .full k w → k = key) :
    Represents table (Function.update map key (some value)) := by
  intro k w
  rw [mask, content, holds_setSlot_full bound others own, Function.update_apply, ← represents]
  by_cases same : k = key
  · simp [same, eq_comm]
  · simp [same]

/-- Fill a free slot or a tombstone with an absent key. -/
theorem fill_spec {self : Hash} {map : Nat → Option Nat} {key slot : Nat} (value used deleted : Nat)
    (wellFormed : WellFormed self) (represents : Represents self map) (bound : slot < self.mask + 1)
    (stop : FirstStop (Cell.stopsInsert key) (slotAt self.mask key) (cells self) slot)
    (notFull : ∀ k w, cells self slot ≠ .full k w)
    (absent : Absent (self.mask + 1) (cells self) key)
    (usedAfter : used = self.used + (if (cells self slot).isFree then 1 else 0))
    (deletedAfter : deleted + (if (cells self slot).isTomb then 1 else 0) = self.deleted)
    (load : 4 * used ≤ 3 * (self.mask + 1)) :
    WellFormed { self with
      entries := store self.entries slot ⟨.allocated, key, value⟩, used := used, deleted := deleted } ∧
    Represents { self with
      entries := store self.entries slot ⟨.allocated, key, value⟩, used := used, deleted := deleted }
      (Function.update map key (some value)) := by
  have content : cells { self with
      entries := store self.entries slot ⟨.allocated, key, value⟩, used := used, deleted := deleted } =
      setSlot (cells self) slot (.full key value) := cells_store self slot _
  obtain ⟨occupied, tombs⟩ := count_setSlot_full (cells self) key value bound
  constructor
  · refine ⟨wellFormed.capacity, ?_, ?_, ?_, load⟩
    · rw [content]
      exact wellFormed.consistent.insert absent stop notFull
    · rw [content, occupied, ← wellFormed.used]
      exact usedAfter
    · have := wellFormed.deleted
      rw [content]
      change deleted = countSlots Cell.isTomb (setSlot (cells self) slot _) (self.mask + 1)
      omega
  · exact represents_fill represents rfl content bound
      (fun s hs _ w h => absent w ⟨s, hs, h⟩) (fun k w h => absurd h (notFull k w))

theorem Capacity.eight_dvd {mask : Nat} (capacity : Capacity mask) : 8 ∣ mask + 1 := by
  obtain ⟨bits, low, -, size⟩ := capacity
  rw [size]
  exact Nat.pow_dvd_pow 2 low

/-- Insert an absent key into a table without tombstones on the way. -/
theorem insert_absent {self : Hash} {map : Nat → Option Nat} {key : Nat} (value : Nat)
    (wellFormed : WellFormed self) (represents : Represents self map)
    (absent : Absent (self.mask + 1) (cells self) key) (noTombs : self.deleted = 0)
    (load : 4 * (self.used + 1) ≤ 3 * (self.mask + 1)) :
    ∃ slot, Hash.lookupForInsert self key = .ok slot ∧
      WellFormed { self with
        entries := store self.entries slot ⟨.allocated, key, value⟩, used := self.used + 1 } ∧
      Represents { self with
        entries := store self.entries slot ⟨.allocated, key, value⟩, used := self.used + 1 }
        (Function.update map key (some value)) := by
  obtain ⟨slot, lookup, bound, stop⟩ :=
    lookupForInsert_spec wellFormed.capacity wellFormed.hasFree key
  have notFull : ∀ k w, cells self slot ≠ .full k w := by
    intro k w full
    obtain ⟨n, -, hstop, -⟩ := stop
    rw [full] at hstop
    have : k = key := by simpa [Cell.stopsInsert] using hstop
    exact absent w ⟨slot, bound, this ▸ full⟩
  have free : (cells self slot).isFree = true ∧ (cells self slot).isTomb = false := by
    cases h : cells self slot with
    | free => exact ⟨rfl, rfl⟩
    | full k w => exact absurd h (notFull k w)
    | tomb k =>
      have := countSlots_pos Cell.isTomb (cells self) bound (by rw [h]; rfl)
      have := wellFormed.deleted
      omega
  obtain ⟨filled, represents⟩ := fill_spec value (self.used + 1) self.deleted
    wellFormed represents bound stop notFull absent
    (by simp [free.1]) (by simp [free.2]) load
  exact ⟨slot, lookup, filled, represents⟩

/-- `GC_Hash_insert` adds or replaces, unless a tombstone hides the key. -/
theorem insert_spec {self : Hash} {map : Nat → Option Nat} (key value : Nat)
    (wellFormed : WellFormed self) (represents : Represents self map)
    (clear : ¬ Obstructed self key) :
    (∃ table, Hash.insert self key value = .ok table ∧ WellFormed table ∧
      Represents table (Function.update map key (some value))) ∨
    Hash.insert self key value = .error callocFailed := by
  obtain ⟨slot, lookup, bound, stop⟩ :=
    lookupForInsert_spec wellFormed.capacity wellFormed.hasFree key
  have load := wellFormed.load
  rw [Hash.insert, lookup]
  simp only [bind, Except.bind]
  cases status : (self.entries slot).status with
  | allocated =>
    left
    have own : (self.entries slot).key = key := by
      obtain ⟨n, -, hstop, -⟩ := stop
      rw [cells, ← stopsInsert_cellOf, status] at hstop
      simpa using hstop
    have held : cells self slot = .full key (self.entries slot).value := by
      rw [cells, cellOf_eq_full, ← status, ← own]
    have content : cells { self with entries := store self.entries slot ⟨.allocated, key, value⟩ } =
        setSlot (cells self) slot (.full key value) := cells_store self slot _
    obtain ⟨occupied, tombs⟩ := count_setSlot_full (cells self) key value bound
    rw [held] at occupied tombs
    refine ⟨{ self with entries := store self.entries slot ⟨.allocated, key, value⟩ },
      by rw [own], ⟨wellFormed.capacity, ?_, ?_, ?_, load⟩, ?_⟩
    · rw [content]
      exact wellFormed.consistent.replace held
    · rw [content, occupied]
      exact wellFormed.used
    · rw [content]
      exact wellFormed.deleted.trans tombs.symm
    · refine represents_fill represents rfl content bound ?_ ?_
      · intro s hs different w h
        exact different (wellFormed.consistent.unique s slot key w _ hs bound h held)
      · intro k w h
        rw [held, Cell.full.injEq] at h
        exact h.1.symm
  | deleted =>
    left
    have tomb : cells self slot = .tomb (self.entries slot).key := cellOf_eq_tomb.mpr ⟨status, rfl⟩
    have notFull : ∀ k w, cells self slot ≠ .full k w := by
      intro k w h
      rw [tomb] at h
      cases h
    have some := countSlots_pos Cell.isTomb (cells self) bound (by rw [tomb]; rfl)
    have deleted := wellFormed.deleted
    have below := countSlots_le Cell.isTomb (cells self) (self.mask + 1)
    have small : self.mask + 1 ≤ 2 ^ 63 := by
      obtain ⟨bits, -, high, size⟩ := wellFormed.capacity
      rw [size]
      exact Nat.pow_le_pow_right (by decide) high
    have one : sizeSub self.deleted 1 + 1 = self.deleted := by
      simp only [sizeSub, sizeModulus] at *
      omega
    obtain ⟨filled, represents⟩ := fill_spec value self.used (sizeSub self.deleted 1)
      wellFormed represents bound stop notFull
      (insert_slot wellFormed clear stop notFull)
      (by rw [tomb]; rfl) (by rw [tomb]; exact one) load
    exact ⟨_, rfl, filled, represents⟩
  | free =>
    have free : cells self slot = .free := cellOf_eq_free.mpr status
    have notFull : ∀ k w, cells self slot ≠ .full k w := by
      intro k w h
      rw [free] at h
      cases h
    have absent := insert_slot wellFormed clear stop notFull
    by_cases full : self.used ≥ self.mask - self.mask / 4
    · simp only [if_pos full]
      have double : sizeMul self.used 2 = 2 * self.used := by
        obtain ⟨bits, -, high, size⟩ := wellFormed.capacity
        have : 2 ^ bits ≤ 2 ^ 63 := Nat.pow_le_pow_right (by decide) high
        simp only [sizeMul, sizeModulus]
        omega
      have occupied := countSlots_occupied (cells self) (self.mask + 1)
      have used := wellFormed.used
      rw [double]
      rcases resize_spec (2 * self.used) wellFormed.consistent (by omega) with
        ⟨table, resized, spec⟩ | failed
      · left
        have enough := spec.enough
        have atLeast := spec.atLeast
        have sameUsed := spec.used
        obtain ⟨slot', lookup', filled, represents⟩ := insert_absent value spec.wellFormed
          (fun k w => (represents k w).trans (spec.holds k w).symm)
          (fun w h => absent w ((spec.holds key w).mp h)) spec.deleted (by omega)
        rw [resized]
        simp only [lookup']
        exact ⟨_, rfl, filled, represents⟩
      · exact Or.inr (by rw [failed])
    · left
      have eight := wellFormed.capacity.eight_dvd
      simp only [if_neg full]
      obtain ⟨filled, represents⟩ := fill_spec value (self.used + 1) self.deleted
        wellFormed represents bound stop notFull absent
        (by rw [free]; rfl) (by rw [free]; rfl) (by omega)
      exact ⟨_, rfl, filled, represents⟩

/-- Turn a held slot into a tombstone. -/
theorem bury_spec {self : Hash} {map : Nat → Option Nat} {key value : Nat} {slot : Nat}
    (wellFormed : WellFormed self) (represents : Represents self map) (bound : slot < self.mask + 1)
    (held : self.entries slot = ⟨.allocated, key, value⟩) :
    WellFormed { self with
      entries := store self.entries slot ⟨.deleted, key, value⟩, deleted := self.deleted + 1 } ∧
    Represents { self with
      entries := store self.entries slot ⟨.deleted, key, value⟩, deleted := self.deleted + 1 }
      (Function.update map key none) := by
  have full : cells self slot = .full key value := cellOf_eq_full.mpr held
  have content : cells { self with
      entries := store self.entries slot ⟨.deleted, key, value⟩, deleted := self.deleted + 1 } =
      setSlot (cells self) slot (.tomb key) := cells_store self slot _
  have occupied := countSlots_set (fun cell => !cell.isFree) (cells self) (.tomb key) bound
  have tombs := countSlots_set Cell.isTomb (cells self) (.tomb key) bound
  simp only [full, Cell.isFree, Cell.isTomb] at occupied tombs
  constructor
  · refine ⟨wellFormed.capacity, ?_, ?_, ?_, wellFormed.load⟩
    · rw [content]
      exact wellFormed.consistent.bury bound full
    · have := wellFormed.used
      rw [content]
      exact this.trans (Nat.add_right_cancel occupied).symm
    · have := wellFormed.deleted
      rw [content]
      exact (congrArg (· + 1) this).trans tombs.symm
  · intro k w
    rw [content, wellFormed.consistent.holds_bury bound full, Function.update_apply, ← represents]
    by_cases same : k = key <;> simp [same]

/-- Dropping the tombstones does not change the mapping. -/
theorem clearTombstones_spec {self : Hash} {map : Nat → Option Nat} (wellFormed : WellFormed self)
    (represents : Represents self map) :
    (∃ table, Hash.clearTombstones self = .ok table ∧ WellFormed table ∧ Represents table map) ∨
    Hash.clearTombstones self = .error callocFailed := by
  unfold Hash.clearTombstones
  by_cases many : self.deleted ≥ (self.mask + 1) / 4
  · rw [if_pos many]
    have occupied := countSlots_occupied (cells self) (self.mask + 1)
    have used := wellFormed.used
    have deleted := wellFormed.deleted
    have load := wellFormed.load
    have eight := wellFormed.capacity.eight_dvd
    rcases resize_spec self.used wellFormed.consistent (by omega) with ⟨table, resized, spec⟩ | failed
    · exact Or.inl ⟨table, resized, spec.wellFormed,
        fun key value => (represents key value).trans (spec.holds key value).symm⟩
    · exact Or.inr failed
  · rw [if_neg many]
    exact Or.inl ⟨self, rfl, wellFormed, represents⟩

/-- `GC_Hash_delete` returns the value and removes the key. -/
theorem delete_spec {self : Hash} {map : Nat → Option Nat} (key : Nat)
    (wellFormed : WellFormed self) (represents : Represents self map) :
    (∃ table, Hash.delete self key = .ok ((map key).getD null, table) ∧ WellFormed table ∧
      Represents table (Function.update map key none)) ∨
    Hash.delete self key = .error callocFailed := by
  obtain ⟨slot, lookup, bound, stop⟩ :=
    lookup_spec wellFormed.capacity wellFormed.hasFree key
  rw [Hash.delete, lookup]
  simp only [bind, Except.bind]
  by_cases allocated : (self.entries slot).status = .allocated
  · have own : (self.entries slot).key = key := by
      obtain ⟨n, -, hstop, -⟩ := stop
      rw [cells, ← stopsSearch_cellOf, allocated] at hstop
      simpa using hstop
    have held : self.entries slot = ⟨.allocated, key, (self.entries slot).value⟩ := by
      rw [← allocated, ← own]
    have mapped : map key = some (self.entries slot).value :=
      (represents _ _).mpr ⟨slot, bound, cellOf_eq_full.mpr held⟩
    obtain ⟨buried, represents⟩ := bury_spec wellFormed represents bound held
    simp only [if_pos allocated, own]
    rcases clearTombstones_spec buried represents with ⟨table, cleared, wf, rep⟩ | failed
    · exact Or.inl ⟨table, by rw [cleared, mapped]; rfl, wf, rep⟩
    · exact Or.inr (by rw [failed])
  · left
    have unmapped : map key = none := by
      rw [Option.eq_none_iff_forall_ne_some]
      intro value mapped
      have held := (wellFormed.consistent.search_iff bound stop).mpr ((represents _ _).mp mapped)
      exact allocated (by rw [cellOf_eq_full.mp held])
    rw [if_neg allocated, unmapped]
    refine ⟨self, rfl, wellFormed, ?_⟩
    rwa [Function.update_eq_self_iff.mpr unmapped.symm]

/-! ## The loop of `GC_Hash_deleteIf` -/

section DeleteIf
variable {σ : Type} (callback : Nat → Nat → σ → Result (Bool × σ))

/-- The calls of one `deleteIf`, in order: key, value, and whether the callback said to
remove it. The callback's own state runs through them. -/
inductive Calls : σ → List (Nat × Nat × Bool) → σ → Prop where
  | none (state : σ) : Calls state [] state
  | call {state next final : σ} {key value : Nat} {remove : Bool}
      {rest : List (Nat × Nat × Bool)} (answer : callback key value state = .ok (remove, next))
      (others : Calls next rest final) : Calls state ((key, value, remove) :: rest) final

/-- Take the removed keys out of a mapping. -/
def afterCalls (map : Nat → Option Nat) (calls : List (Nat × Nat × Bool)) :
    Nat → Option Nat :=
  calls.foldl (fun map call => if call.2.2 then Function.update map call.1 none else map) map

theorem deleteIfLoop_spec (count index : Nat) (self : Hash) (map : Nat → Option Nat)
    (state : σ) (wellFormed : WellFormed self) (represents : Represents self map)
    (within : index + count ≤ self.mask + 1) {table : Hash} {final : σ}
    (run : Hash.deleteIfLoop callback count index self state = .ok (table, final)) :
    ∃ calls, Calls callback state calls final ∧
      calls.map (fun call => (call.1, call.2.1)) = heldFrom (cells self) index count ∧
      WellFormed table ∧ Represents table (afterCalls map calls) := by
  induction count generalizing index self map state with
  | zero =>
    simp only [Hash.deleteIfLoop, Except.ok.injEq, Prod.mk.injEq] at run
    obtain ⟨rfl, rfl⟩ := run
    exact ⟨[], .none _, rfl, wellFormed, represents⟩
  | succ count ih =>
    rw [Hash.deleteIfLoop] at run
    by_cases allocated : (self.entries index).status = .allocated
    · rw [if_pos allocated] at run
      obtain ⟨⟨remove, next⟩, answer, run⟩ := bind_eq_ok.mp run
      have held : self.entries index =
          ⟨.allocated, (self.entries index).key, (self.entries index).value⟩ := by rw [← allocated]
      have full := cellOf_eq_full.mpr held
      have here : heldFrom (cells self) index (count + 1) =
          ((self.entries index).key, (self.entries index).value) ::
            heldFrom (cells self) (index + 1) count := by
        rw [heldFrom, cells, full]
      cases remove with
      | true =>
        obtain ⟨buried, represents'⟩ := bury_spec wellFormed represents (by omega) held
        obtain ⟨calls, called, keys, wf, rep⟩ := ih (index + 1) _ _ next buried represents'
          (by simpa using by omega) run
        refine ⟨((self.entries index).key, (self.entries index).value, true) :: calls,
          .call answer called, ?_, wf, rep⟩
        rw [here, List.map_cons, keys]
        refine congrArg _ (heldFrom_congr _ _ fun slot low => ?_)
        exact congrArg cellOf (store_other _ _ _ _ (show slot ≠ index by omega))
      | false =>
        obtain ⟨calls, called, keys, wf, rep⟩ := ih (index + 1) self map next wellFormed represents
          (by omega) run
        exact ⟨((self.entries index).key, (self.entries index).value, false) :: calls,
          .call answer called, by rw [here, List.map_cons, keys], wf, rep⟩
    · rw [if_neg allocated] at run
      obtain ⟨calls, called, keys, wf, rep⟩ := ih (index + 1) self map state wellFormed represents
        (by omega) run
      refine ⟨calls, called, ?_, wf, rep⟩
      rw [keys, heldFrom]
      cases h : cells self index with
      | free => rfl
      | full key value => exact absurd (by rw [cellOf_eq_full.mp h]) allocated
      | tomb key => rfl

/-- The loop ends when every call returns. -/
theorem deleteIfLoop_total (total : ∀ key value state, ∃ answer, callback key value state = .ok answer)
    (count index : Nat) (self : Hash) (state : σ) :
    ∃ result, Hash.deleteIfLoop callback count index self state = .ok result := by
  induction count generalizing index self state with
  | zero => exact ⟨_, rfl⟩
  | succ count ih =>
    rw [Hash.deleteIfLoop]
    split
    · obtain ⟨⟨remove, next⟩, answer⟩ :=
        total (self.entries index).key (self.entries index).value state
      rw [answer]
      cases remove with
      | true => exact ih (index + 1) _ next
      | false => exact ih (index + 1) self next
    · exact ih (index + 1) self state

end DeleteIf

end ImmixGc.Guarantees
