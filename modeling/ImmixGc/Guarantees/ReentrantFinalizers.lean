import ImmixGc.Guarantees.FinalizerTable

/-!
# Callbacks of `deleteIf` that call the table

`GC_Hash_deleteIf` iterates with raw pointers. As long as no nested call rehashes, and no
nested insertion puts back a key that was already visited, the loop behaves as if it
iterated over the bindings: `tableAfter` reads the resulting map off the events.
-/
namespace ImmixGc.Guarantees
open Source Foundation

/-- The effect of one event on the map. -/
def applyEvent (map : Nat → Option Nat) : TableEvent → Nat → Option Nat
  | .called _ _ => map
  | .inserted key value => Function.update map key (some value)
  | .deleted key _ => Function.update map key none
  | .removed key => Function.update map key none

def tableAfter (map : Nat → Option Nat) (events : List TableEvent) : Nat → Option Nat :=
  events.foldl applyEvent map

theorem tableAfter_concat (map : Nat → Option Nat) (events : List TableEvent) (event : TableEvent) :
    tableAfter map (events ++ [event]) = applyEvent (tableAfter map events) event := by
  simp [tableAfter]

/-- The key a callback was called with. -/
def calledKey : TableEvent → Option Nat
  | .called key _ => some key
  | _ => none

def calledKeys (events : List TableEvent) : List Nat := events.filterMap calledKey

@[simp] theorem calledKeys_concat (events : List TableEvent) (event : TableEvent) :
    calledKeys (events ++ [event]) = calledKeys events ++ (calledKey event).toList := by
  simp only [calledKeys, List.filterMap_append]
  cases event <;> rfl

/-- What one `deleteIf` did, from a table that held `map`. -/
structure VisitedOnce (map : Nat → Option Nat) (events : List TableEvent) (table : Hash) : Prop where
  once : (calledKeys events).Nodup
  represents : Represents table (tableAfter map events)
  removed : ∀ key, .removed key ∈ events → Absent (table.mask + 1) (cells table) key
  inserted : ∀ before after key value, events = before ++ .inserted key value :: after →
    (∀ old, .deleted key old ∉ after) → .removed key ∉ after →
    ∃ current, Holds (table.mask + 1) (cells table) key current

/-- A key that is not deleted after its insertion stays. -/
theorem tableAfter_kept {key : Nat} (after : List TableEvent) (map : Nat → Option Nat)
    (held : ∃ value, map key = some value) (notDeleted : ∀ old, .deleted key old ∉ after)
    (notRemoved : .removed key ∉ after) : ∃ value, tableAfter map after key = some value := by
  induction after generalizing map with
  | nil => exact held
  | cons event after ih =>
    refine ih (applyEvent map event) ?_ (fun old h => notDeleted old (by simp [h]))
      (fun h => notRemoved (by simp [h]))
    obtain ⟨value, held⟩ := held
    cases event with
    | called k v => exact ⟨value, held⟩
    | inserted k v =>
      by_cases same : key = k
      · exact ⟨v, by simp [applyEvent, same]⟩
      · exact ⟨value, by simp [applyEvent, same, held]⟩
    | deleted k v =>
      have different : key ≠ k := by
        rintro rfl
        exact notDeleted v (by simp)
      exact ⟨value, by simp [applyEvent, different, held]⟩
    | removed k =>
      have different : key ≠ k := by
        rintro rfl
        exact notRemoved (by simp)
      exact ⟨value, by simp [applyEvent, different, held]⟩

/-! ## The condition -/

/-- Some slot holds the key. -/
def Held (table : Hash) (key : Nat) : Prop :=
  ∃ slot ≤ table.mask, (table.entries slot).status = .allocated ∧ (table.entries slot).key = key

instance (table : Hash) (key : Nat) : Decidable (Held table key) :=
  inferInstanceAs (Decidable (∃ slot ≤ table.mask, _))

/-- The nested calls of a callback for the key `current`: on other keys, without a rehash,
unobstructed, and never inserting a visited key that is gone. -/
def ScriptClear (current : Nat) : Script → Pinned → Prop
  | .answer _, _ => True
  | .insert key value next, s =>
    (key ≠ current ∧ Hash.insertResizes s.table key = .ok false ∧ ¬ Obstructed s.table key ∧
      (key ∈ calledKeys s.events → Held s.table key)) ∧
    match Hash.insert s.table key value with
    | .ok table => ScriptClear current next ⟨table, s.array, s.events ++ [.inserted key value]⟩
    | .error _ => True
  | .delete key next, s =>
    (key ≠ current ∧ Hash.deleteResizes s.table key = .ok false) ∧
    match Hash.delete s.table key with
    | .ok deleted =>
      ScriptClear current (next deleted.1) ⟨deleted.2, s.array, s.events ++ [.deleted key deleted.1]⟩
    | .error _ => True

/-- The table after the callback for slot `index` answered. -/
def afterVisit (index : Nat) (key : Nat) (answered : Bool × Pinned) : Pinned :=
  if answered.1 then
    { answered.2 with
      table := { answered.2.table with
        entries := store answered.2.table.entries index
          { answered.2.table.entries index with status := .deleted }
        deleted := answered.2.table.deleted + 1 }
      events := answered.2.events ++ [.removed key] }
  else answered.2

/-- The same for the loop over `count` slots from `index` on. -/
def LoopClear (callback : List TableEvent → Nat → Nat → Script) : Nat → Nat → Pinned → Prop
  | 0, _, _ => True
  | count + 1, index, s =>
    if (s.table.entries index).status = .allocated then
      let key := (s.table.entries index).key
      let value := (s.table.entries index).value
      let script := callback s.events key value
      let called : Pinned := { s with events := s.events ++ [.called key value] }
      ScriptClear key script called ∧
      match Hash.runScript script called with
      | .ok answered => LoopClear callback count (index + 1) (afterVisit index key answered)
      | .error _ => True
    else LoopClear callback count (index + 1) s

/-! ## Nested calls that do not rehash -/

section InPlace
variable {self table : Hash} {key value : Nat}

/-- An insertion in place changes one slot: the key's own, or one that holds no key. -/
theorem insert_inPlace (resizes : Hash.insertResizes self key = .ok false)
    (run : Hash.insert self key value = .ok table) (wellFormed : WellFormed self) :
    table.mask = self.mask ∧ ∃ slot < self.mask + 1,
      table.entries slot = ⟨.allocated, key, value⟩ ∧ (∀ s ≠ slot, table.entries s = self.entries s) ∧
      ((self.entries slot).status = .allocated → (self.entries slot).key = key) := by
  obtain ⟨slot, lookup, bound, stop⟩ :=
    lookupForInsert_spec wellFormed.capacity wellFormed.hasFree key
  simp only [Hash.insertResizes, lookup, ok_bind, Except.ok.injEq] at resizes
  simp only [Hash.insert, lookup, ok_bind] at run
  have own : (self.entries slot).status = .allocated → (self.entries slot).key = key := by
    intro allocated
    obtain ⟨n, -, hstop, -⟩ := stop
    rw [cells, ← stopsInsert_cellOf, allocated] at hstop
    simpa using hstop
  cases status : (self.entries slot).status with
  | allocated =>
    simp only [status, Except.ok.injEq] at run
    subst run
    refine ⟨rfl, slot, bound, ?_, fun s different => store_other _ _ _ _ different, own⟩
    simp [own status]
  | free =>
    have few : ¬ self.used ≥ self.mask - self.mask / 4 := by
      intro many
      simp [status, many] at resizes
    simp only [status, if_neg few, Except.ok.injEq] at run
    subst run
    exact ⟨rfl, slot, bound, by simp, fun s different => store_other _ _ _ _ different, own⟩
  | deleted =>
    simp only [status, Except.ok.injEq] at run
    subst run
    exact ⟨rfl, slot, bound, by simp, fun s different => store_other _ _ _ _ different, own⟩

/-- A deletion in place changes at most the slot of the key. -/
theorem delete_inPlace (resizes : Hash.deleteResizes self key = .ok false)
    (run : Hash.delete self key = .ok (value, table)) (wellFormed : WellFormed self) :
    table.mask = self.mask ∧ ∀ s, table.entries s = self.entries s ∨
      ((self.entries s).status = .allocated ∧ (self.entries s).key = key ∧
        (table.entries s).status = .deleted) := by
  obtain ⟨slot, lookup, bound, stop⟩ := lookup_spec wellFormed.capacity wellFormed.hasFree key
  simp only [Hash.deleteResizes, lookup, ok_bind, Except.ok.injEq] at resizes
  simp only [Hash.delete, lookup, ok_bind] at run
  by_cases allocated : (self.entries slot).status = .allocated
  · have few : ¬ self.deleted + 1 ≥ (self.mask + 1) / 4 := by
      intro many
      simp [allocated, many] at resizes
    simp only [if_pos allocated, Hash.clearTombstones, if_neg few, ok_bind, Except.ok.injEq,
      Prod.mk.injEq] at run
    obtain ⟨-, rfl⟩ := run
    refine ⟨rfl, fun s => ?_⟩
    by_cases same : s = slot
    · right
      subst same
      refine ⟨allocated, ?_, by simp⟩
      obtain ⟨n, -, hstop, -⟩ := stop
      rw [cells, ← stopsSearch_cellOf, allocated] at hstop
      simpa using hstop
    · exact Or.inl (store_other _ _ _ _ same)
  · simp only [if_neg allocated, Except.ok.injEq, Prod.mk.injEq] at run
    obtain ⟨-, rfl⟩ := run
    exact ⟨rfl, fun s => Or.inl rfl⟩

end InPlace

/-! ## The loop -/

/-- The invariant of the loop before slot `index`, from a table that held `map`. -/
structure Visiting (map : Nat → Option Nat) (index : Nat) (s : Pinned) : Prop where
  wellFormed : WellFormed s.table
  represents : Represents s.table (tableAfter map s.events)
  /-- Visited keys are behind the loop, or gone. -/
  behind : ∀ key ∈ calledKeys s.events, ∀ slot < s.table.mask + 1,
    (s.table.entries slot).status = .allocated → (s.table.entries slot).key = key → slot < index
  once : (calledKeys s.events).Nodup
  removed : ∀ key, .removed key ∈ s.events →
    key ∈ calledKeys s.events ∧ tableAfter map s.events key = none

theorem held_iff {table : Hash} {map : Nat → Option Nat} (represents : Represents table map)
    (key : Nat) : Held table key ↔ ∃ value, map key = some value := by
  constructor
  · rintro ⟨slot, bound, allocated, rfl⟩
    exact ⟨_, (represents _ _).mpr ⟨slot, by omega, cellOf_eq_full.mpr (by rw [← allocated])⟩⟩
  · rintro ⟨value, mapped⟩
    obtain ⟨slot, bound, full⟩ := (represents _ _).mp mapped
    have entry := cellOf_eq_full.mp full
    exact ⟨slot, by omega, by rw [entry], by rw [entry]⟩

/-- A nested insertion. -/
theorem Visiting.insert {map : Nat → Option Nat} {index : Nat} {s : Pinned} {key value : Nat}
    {table : Hash} (visiting : Visiting map index s)
    (resizes : Hash.insertResizes s.table key = .ok false)
    (fresh : key ∈ calledKeys s.events → Held s.table key)
    (run : Hash.insert s.table key value = .ok table) (wellFormed : WellFormed table)
    (represents : Represents table (Function.update (tableAfter map s.events) key (some value))) :
    Visiting map index ⟨table, s.array, s.events ++ [.inserted key value]⟩ := by
  obtain ⟨mask, slot, slotBound, filled, others, own⟩ := insert_inPlace resizes run visiting.wellFormed
  refine ⟨wellFormed, by rw [tableAfter_concat]; exact represents, ?_, ?_, ?_⟩
  · intro k member t bound allocated same
    simp only [calledKeys_concat, calledKey, Option.toList_none, List.append_nil] at member
    dsimp only at allocated same bound
    rw [mask] at bound
    by_cases here : t = slot
    · -- the slot holds the inserted key, which was held before
      subst here
      rw [filled] at same
      obtain rfl : key = k := same
      obtain ⟨old, oldBound, oldAllocated, oldKey⟩ := fresh member
      have behind := visiting.behind key member old (by omega) oldAllocated oldKey
      by_cases moved : old = t
      · rw [← moved]
        exact behind
      · refine absurd (wellFormed.consistent.unique old t key (s.table.entries old).value value
          (by omega) (by omega) ?_ ?_) moved
        · rw [cells, others old moved, cellOf_eq_full, ← oldAllocated, ← oldKey]
        · rw [cells, filled]
          rfl
    · rw [others t here] at allocated same
      exact visiting.behind k member t bound allocated same
  · simpa [calledKey] using visiting.once
  · intro k member
    have old : .removed k ∈ s.events := by simpa using member
    obtain ⟨called, gone⟩ := visiting.removed k old
    refine ⟨by simp [called], ?_⟩
    rw [tableAfter_concat]
    have different : k ≠ key := by
      rintro rfl
      obtain ⟨v, mapped⟩ := (held_iff visiting.represents k).mp (fresh called)
      rw [gone] at mapped
      cases mapped
    rw [applyEvent, Function.update_of_ne different, gone]

/-- A nested deletion. -/
theorem Visiting.delete {map : Nat → Option Nat} {index : Nat} {s : Pinned} {key value : Nat}
    {table : Hash} (visiting : Visiting map index s)
    (resizes : Hash.deleteResizes s.table key = .ok false)
    (run : Hash.delete s.table key = .ok (value, table)) (wellFormed : WellFormed table)
    (represents : Represents table (Function.update (tableAfter map s.events) key none)) :
    Visiting map index ⟨table, s.array, s.events ++ [.deleted key value]⟩ := by
  obtain ⟨mask, entries⟩ := delete_inPlace resizes run visiting.wellFormed
  refine ⟨wellFormed, by rw [tableAfter_concat]; exact represents, ?_, ?_, ?_⟩
  · intro k member t bound allocated same
    simp only [calledKeys_concat, calledKey, Option.toList_none, List.append_nil] at member
    dsimp only at allocated same bound
    rw [mask] at bound
    rcases entries t with unchanged | ⟨-, -, gone⟩
    · rw [unchanged] at allocated same
      exact visiting.behind k member t bound allocated same
    · rw [gone] at allocated
      cases allocated
  · simpa [calledKey] using visiting.once
  · intro k member
    have old : .removed k ∈ s.events := by simpa using member
    obtain ⟨called, gone⟩ := visiting.removed k old
    refine ⟨by simp [called], ?_⟩
    rw [tableAfter_concat, applyEvent, Function.update_apply, gone, ite_self]

/-- All nested calls of one callback: they return, in the same array, and leave the slot of
the current key alone. -/
theorem runScript_spec {map : Nat → Option Nat} {index current : Nat} (script : Script)
    {s : Pinned} (visiting : Visiting map index s) (clear : ScriptClear current script s)
    {slot : Nat} {entry : Entry} (here : s.table.entries slot = entry)
    (own : entry.status = .allocated ∧ entry.key = current) :
    (∃ remove s', Hash.runScript script s = .ok (remove, s') ∧ Visiting map index s' ∧
      s'.array = s.array ∧ s'.table.mask = s.table.mask ∧ s'.table.entries slot = entry ∧
      calledKeys s'.events = calledKeys s.events) ∨
    Hash.runScript script s = .error callocFailed := by
  induction script generalizing s with
  | answer remove => exact Or.inl ⟨remove, s, rfl, visiting, rfl, rfl, here, rfl⟩
  | insert key value next ih =>
    obtain ⟨⟨other, resizes, unobstructed, fresh⟩, later⟩ := clear
    simp only [Hash.runScript, resizes, ok_bind]
    rcases insert_spec key value visiting.wellFormed visiting.represents unobstructed with
      ⟨table, run, wellFormed, represents⟩ | failed
    · rw [run] at later
      have next' := visiting.insert resizes fresh run wellFormed represents
      obtain ⟨mask, target, -, filled, others, targetKey⟩ :=
        insert_inPlace resizes run visiting.wellFormed
      have apart : slot ≠ target := by
        rintro rfl
        rw [here] at targetKey
        exact other (targetKey own.1 ▸ own.2)
      rw [run, ok_bind]
      rcases ih next' later (by rw [others slot apart]; exact here) with
        ⟨remove, s', ran, done, array, sameMask, entry', keys⟩ | failed
      · exact Or.inl ⟨remove, s', ran, done, array, sameMask.trans mask, entry',
          by rw [keys]; simp [calledKey]⟩
      · exact Or.inr failed
    · exact Or.inr (by rw [failed]; rfl)
  | delete key next ih =>
    rw [ScriptClear] at clear
    obtain ⟨⟨other, resizes⟩, later⟩ := clear
    simp only [Hash.runScript, resizes, ok_bind]
    rcases delete_spec key visiting.wellFormed visiting.represents with
      ⟨table, run, wellFormed, represents⟩ | failed
    · rw [run] at later
      have next' := visiting.delete resizes run wellFormed represents
      obtain ⟨mask, entries⟩ := delete_inPlace resizes run visiting.wellFormed
      have kept : table.entries slot = entry := by
        rcases entries slot with unchanged | ⟨-, same, -⟩
        · rw [unchanged, here]
        · rw [here, own.2] at same
          exact absurd same.symm other
      rw [run, ok_bind]
      rcases ih _ next' later kept with ⟨remove, s', ran, done, array, sameMask, entry', keys⟩ | failed
      · exact Or.inl ⟨remove, s', ran, done, array, sameMask.trans mask, entry',
          by rw [keys]; simp [calledKey]⟩
      · exact Or.inr failed
    · exact Or.inr (by rw [failed]; rfl)

/-- The callback is called for the key of slot `index`. -/
theorem Visiting.call {map : Nat → Option Nat} {index : Nat} {s : Pinned}
    (visiting : Visiting map index s) (inside : index < s.table.mask + 1)
    (allocated : (s.table.entries index).status = .allocated) :
    Visiting map (index + 1) { s with
      events := s.events ++ [.called (s.table.entries index).key (s.table.entries index).value] } := by
  refine ⟨visiting.wellFormed, by rw [tableAfter_concat]; exact visiting.represents, ?_, ?_, ?_⟩
  · intro key member slot bound slotAllocated same
    dsimp only at slotAllocated same bound
    simp only [calledKeys_concat, calledKey, Option.toList_some, List.mem_append,
      List.mem_singleton] at member
    rcases member with old | rfl
    · have := visiting.behind key old slot bound slotAllocated same
      omega
    · have := visiting.wellFormed.consistent.unique slot index (s.table.entries slot).key
        (s.table.entries slot).value (s.table.entries index).value bound inside
        (by rw [cells, cellOf_eq_full, ← slotAllocated])
        (by rw [cells, cellOf_eq_full, ← allocated, same])
      omega
  · simp only [calledKeys_concat, calledKey, Option.toList_some]
    refine List.Nodup.append visiting.once (by simp) ?_
    intro key old new
    rw [List.mem_singleton] at new
    have := visiting.behind key old index inside allocated new.symm
    omega
  · intro key member
    have old : .removed key ∈ s.events := by simpa using member
    obtain ⟨called, gone⟩ := visiting.removed key old
    exact ⟨by simp [called], by rw [tableAfter_concat]; exact gone⟩

/-- The callback said to remove the key of slot `index`. -/
theorem Visiting.remove {map : Nat → Option Nat} {index : Nat} {s : Pinned} {key value : Nat}
    (visiting : Visiting map (index + 1) s) (inside : index < s.table.mask + 1)
    (held : s.table.entries index = ⟨.allocated, key, value⟩) (called : key ∈ calledKeys s.events) :
    Visiting map (index + 1) { s with
      table := { s.table with
        entries := store s.table.entries index { s.table.entries index with status := .deleted }
        deleted := s.table.deleted + 1 }
      events := s.events ++ [.removed key] } := by
  obtain ⟨buried, represents⟩ := bury_spec visiting.wellFormed visiting.represents inside held
  rw [held]
  refine ⟨buried, by rw [tableAfter_concat]; exact represents, ?_, ?_, ?_⟩
  · intro k member slot bound allocated same
    simp only [calledKeys_concat, calledKey, Option.toList_none, List.append_nil] at member
    dsimp only at allocated same bound
    by_cases here : slot = index
    · omega
    · rw [store_other _ _ _ _ here] at allocated same
      exact visiting.behind k member slot bound allocated same
  · simpa [calledKey] using visiting.once
  · intro k member
    rw [tableAfter_concat, applyEvent, Function.update_apply]
    by_cases same : k = key
    · rw [if_pos same, same]
      exact ⟨by simp [called], rfl⟩
    · have old : .removed k ∈ s.events := by simpa [same] using member
      obtain ⟨kCalled, gone⟩ := visiting.removed k old
      exact ⟨by simp [kCalled], by rw [if_neg same, gone]⟩

/-- The loop reads and writes only the current array, and keeps its invariant. -/
theorem deleteIfPinned_spec (callback : List TableEvent → Nat → Nat → Script)
    {map : Nat → Option Nat} (count index : Nat) {s : Pinned} (visiting : Visiting map index s)
    (inside : index + count = s.table.mask + 1) (clear : LoopClear callback count index s) :
    (∃ s', Hash.deleteIfPinned callback s.array count index s = .ok s' ∧
      Visiting map (s.table.mask + 1) s' ∧ s'.table.mask = s.table.mask) ∨
    Hash.deleteIfPinned callback s.array count index s = .error callocFailed := by
  induction count generalizing index s with
  | zero => exact Or.inl ⟨s, rfl, by rw [← inside]; exact visiting, rfl⟩
  | succ count ih =>
    rw [Hash.deleteIfPinned, if_neg (fun h => h rfl)]
    rw [LoopClear] at clear
    by_cases allocated : (s.table.entries index).status = .allocated
    · rw [if_pos allocated] at clear ⊢
      obtain ⟨scriptClear, later⟩ := clear
      have held : s.table.entries index =
          ⟨.allocated, (s.table.entries index).key, (s.table.entries index).value⟩ := by
        rw [← allocated]
      have called := visiting.call (by omega) allocated
      rcases runScript_spec _ called scriptClear held ⟨rfl, rfl⟩ with
        ⟨remove, s', ran, done, array, mask, entry, keys⟩ | failed
      · rw [ran] at later
        dsimp only at later array mask keys ⊢
        rw [ran, ok_bind]
        dsimp only
        cases remove with
        | true =>
          rw [afterVisit, if_pos rfl] at later
          rw [if_pos rfl, if_neg (fun h => h array)]
          have member : (s.table.entries index).key ∈ calledKeys s'.events := by
            rw [keys]
            simp [calledKey]
          have next := done.remove (by omega) entry member
          rw [← array]
          rcases ih (index + 1) next (by dsimp only; omega) later with ⟨s'', run, final, same⟩ | failed
          · refine Or.inl ⟨s'', run, ?_, same.trans mask⟩
            rw [← mask]
            exact final
          · exact Or.inr failed
        | false =>
          simp only [afterVisit, Bool.false_eq_true, if_false] at later ⊢
          rw [← array]
          rcases ih (index + 1) done (by omega) later with ⟨s'', run, final, same⟩ | failed
          · refine Or.inl ⟨s'', run, ?_, same.trans mask⟩
            rw [← mask]
            exact final
          · exact Or.inr failed
      · right
        dsimp only
        rw [failed]
        rfl
    · rw [if_neg allocated] at clear ⊢
      refine ih (index + 1) ⟨visiting.wellFormed, visiting.represents, ?_, visiting.once,
        visiting.removed⟩ (by omega) clear
      intro key member slot bound slotAllocated same
      have := visiting.behind key member slot bound slotAllocated same
      omega

/-- `GC_Hash_deleteIf` with a callback that calls the table, from a table that stands for a map. -/
theorem deleteIfReentrant_spec (callback : List TableEvent → Nat → Nat → Script) {table : Hash}
    {map : Nat → Option Nat} (wellFormed : WellFormed table) (represents : Represents table map)
    (clear : LoopClear callback (table.mask + 1) 0 ⟨table, 0, []⟩) :
    (∃ table' events, Hash.deleteIfReentrant callback table = .ok (table', events) ∧
      WellFormed table' ∧ VisitedOnce map events table') ∨
    Hash.deleteIfReentrant callback table = .error callocFailed := by
  have start : Visiting map 0 ⟨table, 0, []⟩ :=
    ⟨wellFormed, represents, by simp [calledKeys], by simp [calledKeys], by simp⟩
  rw [Hash.deleteIfReentrant]
  rcases deleteIfPinned_spec callback (table.mask + 1) 0 start (Nat.zero_add _) clear with
    ⟨s, run, visited, -⟩ | failed
  · rw [run, ok_bind]
    rcases clearTombstones_spec visited.wellFormed visited.represents with
      ⟨table', cleared, wellFormed', represents'⟩ | failed
    · rw [cleared]
      refine Or.inl ⟨table', s.events, rfl, wellFormed', visited.once, represents', ?_, ?_⟩
      · intro key member value held
        obtain ⟨-, gone⟩ := visited.removed key member
        rw [(represents' key value).mpr held] at gone
        cases gone
      · intro before after key value split notDeleted notRemoved
        obtain ⟨current, mapped⟩ := tableAfter_kept after
          (applyEvent (tableAfter map before) (.inserted key value)) ⟨value, by simp [applyEvent]⟩
          notDeleted notRemoved
        refine ⟨current, (represents' key current).mp ?_⟩
        rw [split, tableAfter, List.foldl_append, List.foldl_cons]
        exact mapped
    · exact Or.inr (by rw [failed]; rfl)
  · exact Or.inr (by rw [failed]; rfl)

/-! ## Runs -/

/-- The calls of a client whose callbacks may call the table. -/
inductive SharedCall where
  | insert (key value : Nat)
  | delete (key : Nat)
  | search (key : Nat)
  | deleteIf (callback : List TableEvent → Nat → Nat → Script)

def callShared (table : Hash) : SharedCall → Result Hash
  | .insert key value => Hash.insert table key value
  | .delete key => do
    let deleted ← Hash.delete table key
    .ok deleted.2
  | .search key => do
    let _ ← Hash.search table key
    .ok table
  | .deleteIf callback => do
    let visited ← Hash.deleteIfReentrant callback table
    .ok visited.1

def SharedClear (table : Hash) : SharedCall → Prop
  | .insert key _ => ¬ Obstructed table key
  | .deleteIf callback => LoopClear callback (table.mask + 1) 0 ⟨table, 0, []⟩
  | _ => True

def runShared : List SharedCall → Hash → Result Hash
  | [], table => .ok table
  | call :: calls, table => do
    let table ← callShared table call
    runShared calls table

/-- Every call of the run meets its condition in the table it is made on. -/
def RunClear : List SharedCall → Hash → Prop
  | [], _ => True
  | call :: calls, table => SharedClear table call ∧
    match callShared table call with
    | .ok table => RunClear calls table
    | .error _ => True

theorem callShared_spec (call : SharedCall) {table : Hash} {map : Nat → Option Nat}
    (wellFormed : WellFormed table) (represents : Represents table map)
    (clear : SharedClear table call) :
    (∃ table' map', callShared table call = .ok table' ∧ WellFormed table' ∧
      Represents table' map') ∨
    callShared table call = .error callocFailed := by
  cases call with
  | insert key value =>
    rcases insert_spec key value wellFormed represents clear with ⟨table', run, wf, rep⟩ | failed
    · exact Or.inl ⟨table', _, run, wf, rep⟩
    · exact Or.inr failed
  | delete key =>
    rcases delete_spec key wellFormed represents with ⟨table', run, wf, rep⟩ | failed
    · exact Or.inl ⟨table', _, by rw [callShared, run]; rfl, wf, rep⟩
    · exact Or.inr (by rw [callShared, failed]; rfl)
  | search key =>
    exact Or.inl ⟨table, map, by rw [callShared, search_spec wellFormed represents]; rfl, wellFormed,
      represents⟩
  | deleteIf callback =>
    rcases deleteIfReentrant_spec callback wellFormed represents clear with
      ⟨table', events, run, wf, visited⟩ | failed
    · exact Or.inl ⟨table', _, by rw [callShared, run]; rfl, wf, visited.represents⟩
    · exact Or.inr (by rw [callShared, failed]; rfl)

/-- The run lemma: a run of such calls ends in a table that stands for a map. -/
theorem runShared_spec (calls : List SharedCall) (last : SharedCall) {table : Hash}
    {map : Nat → Option Nat} (wellFormed : WellFormed table) (represents : Represents table map)
    (clear : RunClear (calls ++ [last]) table) :
    (∃ table' map', runShared calls table = .ok table' ∧ WellFormed table' ∧
      Represents table' map' ∧ SharedClear table' last) ∨
    runShared calls table = .error callocFailed := by
  induction calls generalizing table map with
  | nil => exact Or.inl ⟨table, map, rfl, wellFormed, represents, clear.1⟩
  | cons call calls ih =>
    obtain ⟨now, later⟩ := clear
    rw [runShared]
    rcases callShared_spec call wellFormed represents now with ⟨table', map', run, wf, rep⟩ | failed
    · rw [run] at later
      rw [run, ok_bind]
      exact ih wf rep later
    · exact Or.inr (by rw [failed]; rfl)

/-- In every run of calls whose nested calls meet the condition, `deleteIf` touches only
the current entries array, calls its callback at most once per key, removes the keys it
was told to, and keeps the keys inserted meanwhile; or `calloc` fails. -/
theorem deleteIf_visits_once (capacity : Nat) (calls : List SharedCall)
    (callback : List TableEvent → Nat → Nat → Script)
    (clear : ∀ table, Hash.create capacity = .ok table →
      RunClear (calls ++ [.deleteIf callback]) table) :
    (∃ before map after events, (do
        let table ← Hash.create capacity
        runShared calls table) = .ok before ∧ Represents before map ∧
      Hash.deleteIfReentrant callback before = .ok (after, events) ∧ VisitedOnce map events after) ∨
    (do
      let table ← Hash.create capacity
      let before ← runShared calls table
      Hash.deleteIfReentrant callback before) = .error callocFailed := by
  rcases create_spec capacity with ⟨table, created, wellFormed, represents⟩ | failed
  · simp only [created, ok_bind]
    rcases runShared_spec calls (.deleteIf callback) wellFormed represents (clear table created) with
      ⟨before, map, run, wf, rep, last⟩ | failed
    · rcases deleteIfReentrant_spec callback wf rep last with ⟨after, events, visited, -, done⟩ | failed
      · exact Or.inl ⟨before, map, after, events, run, rep, visited, done⟩
      · exact Or.inr (by rw [run, ok_bind, failed])
    · exact Or.inr (by rw [failed]; rfl)
  · exact Or.inr (by rw [failed]; rfl)

instance scriptClearDecidable (current : Nat) : (script : Script) → (s : Pinned) →
    Decidable (ScriptClear current script s)
  | .answer _, _ => isTrue trivial
  | .insert key value next, s =>
    letI : Decidable (match Hash.insert s.table key value with
        | .ok table => ScriptClear current next ⟨table, s.array, s.events ++ [.inserted key value]⟩
        | .error _ => True) :=
      match Hash.insert s.table key value with
      | .ok table => scriptClearDecidable current next ⟨table, s.array, s.events ++ [.inserted key value]⟩
      | .error _ => isTrue trivial
    inferInstanceAs (Decidable ((_ ∧ _ ∧ _ ∧ _) ∧ _))
  | .delete key next, s =>
    let later : Decidable (match Hash.delete s.table key with
        | .ok deleted =>
          ScriptClear current (next deleted.1)
            ⟨deleted.2, s.array, s.events ++ [.deleted key deleted.1]⟩
        | .error _ => True) :=
      match Hash.delete s.table key with
      | .ok deleted =>
        scriptClearDecidable current (next deleted.1)
          ⟨deleted.2, s.array, s.events ++ [.deleted key deleted.1]⟩
      | .error _ => isTrue trivial
    @decidable_of_iff _
      ((key ≠ current ∧ Hash.deleteResizes s.table key = .ok false) ∧ _)
      (by rw [ScriptClear]) (@instDecidableAnd _ _ inferInstance later)

instance loopClearDecidable (callback : List TableEvent → Nat → Nat → Script) :
    (count index : Nat) → (s : Pinned) → Decidable (LoopClear callback count index s)
  | 0, _, _ => isTrue trivial
  | count + 1, index, s =>
    let key := (s.table.entries index).key
    let script := callback s.events key (s.table.entries index).value
    let called : Pinned := { s with events := s.events ++ [.called key (s.table.entries index).value] }
    let later : Decidable (match Hash.runScript script called with
        | .ok answered => LoopClear callback count (index + 1) (afterVisit index key answered)
        | .error _ => True) :=
      match Hash.runScript script called with
      | .ok answered => loopClearDecidable callback count (index + 1) (afterVisit index key answered)
      | .error _ => isTrue trivial
    let visit : Decidable (ScriptClear key script called ∧ _) :=
      @instDecidableAnd _ _ (scriptClearDecidable key script called) later
    if allocated : (s.table.entries index).status = .allocated then
      @decidable_of_iff _ _ (by rw [LoopClear, if_pos allocated]) visit
    else
      @decidable_of_iff _ _ (by rw [LoopClear, if_neg allocated])
        (loopClearDecidable callback count (index + 1) s)

instance (table : Hash) (call : SharedCall) : Decidable (SharedClear table call) :=
  match call with
  | .insert key _ => inferInstanceAs (Decidable (¬ Obstructed table key))
  | .delete _ => isTrue trivial
  | .search _ => isTrue trivial
  | .deleteIf callback => inferInstanceAs (Decidable (LoopClear callback _ _ _))

instance runClearDecidable : (calls : List SharedCall) → (table : Hash) →
    Decidable (RunClear calls table)
  | [], _ => isTrue trivial
  | call :: calls, table =>
    letI : Decidable (match callShared table call with
        | .ok table => RunClear calls table
        | .error _ => True) :=
      match callShared table call with
      | .ok table => runClearDecidable calls table
      | .error _ => isTrue trivial
    inferInstanceAs (Decidable (SharedClear table call ∧ _))

/-- A callback that registers another key while `deleteIf` visits `64`, and lets it go. -/
def registerOther (_ : List TableEvent) (key _ : Nat) : Script :=
  if key = 64 then .insert 144 3 (.answer true) else .answer false

theorem registerOther_visits_once :
    ∃ before map after events, (do
        let table ← Hash.create 0
        runShared [.insert 16 1, .insert 64 2] table) = .ok before ∧ Represents before map ∧
      Hash.deleteIfReentrant registerOther before = .ok (after, events) ∧
      VisitedOnce map events after := by
  have start : Hash.create 0 = .ok ⟨fun _ => Entry.zero, 7, 0, 0⟩ := by rfl
  refine (deleteIf_visits_once 0 [.insert 16 1, .insert 64 2] registerOther ?_).resolve_right ?_
  · intro table created
    rw [start, Except.ok.injEq] at created
    subst created
    decide +kernel
  · intro failed
    have ends : (do
        let table ← Hash.create 0
        let before ← runShared [.insert 16 1, .insert 64 2] table
        Hash.deleteIfReentrant registerOther before).toBool = true := by rfl
    rw [failed] at ends
    cases ends

/-- Six keys fill three quarters of eight slots: the insertion of a seventh by the callback
rehashes, and the loop goes on in the array that was freed. -/
theorem nested_insert_frees_entries :
    ((do
      let table ← Hash.create 0
      let table ← runShared [.insert 16 1, .insert 32 1, .insert 48 1, .insert 64 1, .insert 80 1,
        .insert 96 1] table
      Hash.deleteIfReentrant (fun _ _ _ => .insert 112 1 (.answer false)) table) : Result _) =
      .error (.undefined "read of a freed entries array") := by
  rfl

end ImmixGc.Guarantees
