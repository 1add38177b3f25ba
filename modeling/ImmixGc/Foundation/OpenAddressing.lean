import Mathlib.Data.List.Range
import Mathlib.Data.Nat.Find
import Mathlib.Tactic.Common

/-!
# Open addressing with tombstones

A table is a function from slots to cells together with a probe sequence for each key.
`FirstStop` says at which slot a probing loop ends. `Consistent` is the invariant that
makes searching correct: no key is held twice, and a search for a key that is held ends
at its slot. Inserting an absent key, replacing a value and burying a key keep it, and
each changes the mapping `Holds` in the expected way.
-/
namespace ImmixGc.Foundation

inductive Cell (κ ν : Type) where
  | free
  | full (key : κ) (value : ν)
  | tomb (key : κ)

namespace Cell
variable {κ ν : Type} [DecidableEq κ]

def stopsSearch (key : κ) : Cell κ ν → Bool
  | free => true
  | full k _ => k = key
  | tomb k => k = key

def stopsInsert (key : κ) : Cell κ ν → Bool
  | free => true
  | full k _ => k = key
  | tomb _ => true

def isFull : Cell κ ν → Bool
  | full _ _ => true
  | _ => false

def isFree : Cell κ ν → Bool
  | free => true
  | _ => false

def isTomb : Cell κ ν → Bool
  | tomb _ => true
  | _ => false

end Cell

/-- `slot` is the first slot of the sequence at which `stop` holds. -/
def FirstStop {α : Type} (stop : α → Bool) (sequence : Nat → Nat) (cells : Nat → α)
    (slot : Nat) : Prop :=
  ∃ n, sequence n = slot ∧ stop (cells slot) = true ∧ ∀ m < n, stop (cells (sequence m)) = false

theorem FirstStop.unique {α : Type} {stop : α → Bool} {sequence : Nat → Nat} {cells : Nat → α}
    {s t : Nat} (first : FirstStop stop sequence cells s) (second : FirstStop stop sequence cells t) :
    s = t := by
  obtain ⟨n, rfl, hn, before⟩ := first
  obtain ⟨m, rfl, hm, before'⟩ := second
  rcases Nat.lt_trichotomy n m with lt | eq | gt
  · rw [before' n lt] at hn
    cases hn
  · rw [eq]
  · rw [before m gt] at hm
    cases hm

/-- Change one slot. -/
def setSlot {α : Type} (cells : Nat → α) (slot : Nat) (cell : α) : Nat → α :=
  fun s => if s = slot then cell else cells s

section Count
variable {α : Type} (p : α → Bool)

/-- The number of slots below `capacity` whose content satisfies `p`. -/
def countSlots (cells : Nat → α) (capacity : Nat) : Nat :=
  (List.range capacity).countP fun s => p (cells s)

@[simp] theorem countSlots_zero (cells : Nat → α) : countSlots p cells 0 = 0 := rfl

theorem countSlots_succ (cells : Nat → α) (capacity : Nat) :
    countSlots p cells (capacity + 1) =
      countSlots p cells capacity + (if p (cells capacity) then 1 else 0) := by
  simp [countSlots, List.range_succ, List.countP_singleton]

theorem countSlots_congr {cells other : Nat → α} {capacity : Nat}
    (same : ∀ s < capacity, p (cells s) = p (other s)) :
    countSlots p cells capacity = countSlots p other capacity := by
  induction capacity with
  | zero => rfl
  | succ capacity ih =>
    rw [countSlots_succ, countSlots_succ, ih fun s hs => same s (by omega), same capacity (by omega)]

theorem countSlots_set (cells : Nat → α) {slot capacity : Nat} (cell : α)
    (bound : slot < capacity) :
    countSlots p (setSlot cells slot cell) capacity + (if p (cells slot) then 1 else 0) =
      countSlots p cells capacity + (if p cell then 1 else 0) := by
  induction capacity with
  | zero => omega
  | succ capacity ih =>
    rw [countSlots_succ, countSlots_succ]
    by_cases last : slot = capacity
    · subst last
      have below : countSlots p (setSlot cells slot cell) slot = countSlots p cells slot :=
        countSlots_congr p fun s hs => by simp [setSlot, Nat.ne_of_lt hs]
      rw [below]
      simp only [setSlot, if_true]
      omega
    · have untouched : setSlot cells slot cell capacity = cells capacity := by
        simp [setSlot, Ne.symm last]
      have := ih (by omega)
      rw [untouched]
      omega

theorem countSlots_le (cells : Nat → α) (capacity : Nat) : countSlots p cells capacity ≤ capacity := by
  induction capacity with
  | zero => simp
  | succ capacity ih =>
    rw [countSlots_succ]
    split <;> omega

theorem exists_slot_of_count_lt {cells : Nat → α} {capacity : Nat}
    (less : countSlots p cells capacity < capacity) : ∃ s < capacity, p (cells s) = false := by
  by_contra none
  have all : ∀ s < capacity, p (cells s) = true := by
    intro s hs
    by_contra hp
    exact none ⟨s, hs, by simpa using hp⟩
  have full : countSlots p cells capacity = capacity := by
    clear less none
    induction capacity with
    | zero => rfl
    | succ capacity ih =>
      rw [countSlots_succ, ih fun s hs => all s (by omega), all capacity (by omega)]
      rfl
  omega

theorem countSlots_mono (cells : Nat → α) {capacity larger : Nat} (le : capacity ≤ larger) :
    countSlots p cells capacity ≤ countSlots p cells larger := by
  induction le with
  | refl => exact Nat.le_refl _
  | step le ih =>
    rw [countSlots_succ]
    omega

theorem countSlots_pos (cells : Nat → α) {slot capacity : Nat} (bound : slot < capacity)
    (holds : p (cells slot) = true) : 0 < countSlots p cells capacity := by
  refine List.countP_pos_iff.mpr ⟨slot, List.mem_range.mpr bound, holds⟩

end Count

section Tables
variable {κ ν : Type} [DecidableEq κ]

/-- The table holds `value` under `key`. -/
def Holds (capacity : Nat) (cells : Nat → Cell κ ν) (key : κ) (value : ν) : Prop :=
  ∃ slot < capacity, cells slot = .full key value

def Absent (capacity : Nat) (cells : Nat → Cell κ ν) (key : κ) : Prop :=
  ∀ value, ¬ Holds capacity cells key value

omit [DecidableEq κ] in
/-- The slots in use hold a key or a tombstone. -/
theorem countSlots_occupied (cells : Nat → Cell κ ν) (capacity : Nat) :
    countSlots (fun cell => !cell.isFree) cells capacity =
      countSlots Cell.isFull cells capacity + countSlots Cell.isTomb cells capacity := by
  induction capacity with
  | zero => rfl
  | succ capacity ih =>
    rw [countSlots_succ, countSlots_succ, countSlots_succ, ih]
    cases cells capacity with
    | free => simp [Cell.isFree, Cell.isFull, Cell.isTomb]
    | full key value => simp only [Cell.isFree, Cell.isFull, Cell.isTomb]; simp; omega
    | tomb key => simp only [Cell.isFree, Cell.isFull, Cell.isTomb]; simp; omega

/-- The keys and values of `count` slots from `index` on, in slot order. -/
def heldFrom (cells : Nat → Cell κ ν) : Nat → Nat → List (κ × ν)
  | _, 0 => []
  | index, count + 1 =>
    match cells index with
    | .full key value => (key, value) :: heldFrom cells (index + 1) count
    | _ => heldFrom cells (index + 1) count

omit [DecidableEq κ] in
theorem mem_heldFrom {cells : Nat → Cell κ ν} {key : κ} {value : ν} (index count : Nat) :
    (key, value) ∈ heldFrom cells index count ↔
      ∃ slot, index ≤ slot ∧ slot < index + count ∧ cells slot = .full key value := by
  induction count generalizing index with
  | zero =>
    simp only [heldFrom, List.not_mem_nil, false_iff]
    rintro ⟨slot, low, high, -⟩
    omega
  | succ count ih =>
    have split : (∃ slot, index ≤ slot ∧ slot < index + (count + 1) ∧
          cells slot = .full key value) ↔
        cells index = .full key value ∨ (∃ slot, index + 1 ≤ slot ∧ slot < index + 1 + count ∧
          cells slot = .full key value) := by
      constructor
      · rintro ⟨slot, low, high, h⟩
        rcases Nat.eq_or_lt_of_le low with rfl | lt
        · exact Or.inl h
        · exact Or.inr ⟨slot, lt, by omega, h⟩
      · rintro (h | ⟨slot, low, high, h⟩)
        · exact ⟨index, Nat.le_refl _, by omega, h⟩
        · exact ⟨slot, by omega, by omega, h⟩
    rw [split, ← ih]
    cases h : cells index with
    | free => simp [heldFrom, h]
    | full k v =>
      simp only [heldFrom, h, List.mem_cons, Prod.mk.injEq, Cell.full.injEq]
      exact or_congr_left ⟨fun e => ⟨e.1.symm, e.2.symm⟩, fun e => ⟨e.1.symm, e.2.symm⟩⟩
    | tomb k => simp [heldFrom, h]

omit [DecidableEq κ] in
theorem heldFrom_congr {cells other : Nat → Cell κ ν} (index count : Nat)
    (same : ∀ slot, index ≤ slot → cells slot = other slot) :
    heldFrom cells index count = heldFrom other index count := by
  induction count generalizing index with
  | zero => rfl
  | succ count ih =>
    have rest := ih (index + 1) fun slot low => same slot (by omega)
    rw [heldFrom, heldFrom, same index (Nat.le_refl _), rest]

omit [DecidableEq κ] in
/-- No key is met twice when no key is held twice. -/
theorem nodup_heldFrom {cells : Nat → Cell κ ν} {capacity : Nat} (index count : Nat)
    (within : index + count ≤ capacity)
    (unique : ∀ s t key v w, s < capacity → t < capacity →
      cells s = .full key v → cells t = .full key w → s = t) :
    ((heldFrom cells index count).map Prod.fst).Nodup := by
  induction count generalizing index with
  | zero => simp [heldFrom]
  | succ count ih =>
    have rest := ih (index + 1) (by omega)
    cases h : cells index with
    | free => simpa [heldFrom, h] using rest
    | full k v =>
      simp only [heldFrom, h, List.map_cons, List.nodup_cons]
      refine ⟨?_, rest⟩
      intro member
      obtain ⟨⟨k', w⟩, hw, rfl⟩ := List.mem_map.mp member
      obtain ⟨slot, low, high, hslot⟩ := (mem_heldFrom _ _).mp hw
      have := unique index slot k' v w (by omega) (by omega) h hslot
      omega
    | tomb k => simpa [heldFrom, h] using rest

/-- No key twice, and every held key is where a search for it ends. -/
structure Consistent (path : κ → Nat → Nat) (capacity : Nat) (cells : Nat → Cell κ ν) : Prop where
  unique : ∀ s t key v w, s < capacity → t < capacity →
    cells s = .full key v → cells t = .full key w → s = t
  reached : ∀ s key v, s < capacity → cells s = .full key v →
    FirstStop (Cell.stopsSearch key) (path key) cells s

variable {path : κ → Nat → Nat} {capacity : Nat} {cells : Nat → Cell κ ν}

theorem Consistent.empty (path : κ → Nat → Nat) (capacity : Nat) :
    Consistent path capacity (fun _ => (Cell.free : Cell κ ν)) :=
  ⟨fun _ _ _ _ _ _ _ h => (by cases h), fun _ _ _ _ h => (by cases h)⟩

/-- A search ends at the key's own slot exactly when the key is held. -/
theorem Consistent.search_iff (consistent : Consistent path capacity cells) {key : κ} {value : ν}
    {slot : Nat} (bound : slot < capacity)
    (stop : FirstStop (Cell.stopsSearch key) (path key) cells slot) :
    cells slot = .full key value ↔ Holds capacity cells key value := by
  constructor
  · intro h
    exact ⟨slot, bound, h⟩
  · rintro ⟨s, hs, es⟩
    rw [stop.unique (consistent.reached s key value hs es)]
    exact es

/-- The cell a search ends at: the key's, a free cell, or a tombstone of the key. -/
theorem stopsSearch_cases {key : κ} {cell : Cell κ ν} (stops : cell.stopsSearch key = true) :
    cell = .free ∨ cell = .tomb key ∨ ∃ value, cell = .full key value := by
  cases cell with
  | free => exact Or.inl rfl
  | full k v =>
    have : k = key := by simpa [Cell.stopsSearch] using stops
    exact Or.inr (Or.inr ⟨v, by rw [this]⟩)
  | tomb k =>
    have : k = key := by simpa [Cell.stopsSearch] using stops
    exact Or.inr (Or.inl (by rw [this]))

theorem stopsSearch_le_stopsInsert {key : κ} {cell : Cell κ ν}
    (passes : cell.stopsInsert key = false) : cell.stopsSearch key = false := by
  cases cell <;> simp_all [Cell.stopsInsert, Cell.stopsSearch]

omit [DecidableEq κ] in
theorem holds_setSlot_full {slot : Nat} {key : κ} {value : ν} (bound : slot < capacity)
    (others : ∀ s < capacity, s ≠ slot → ∀ w, cells s ≠ .full key w)
    (own : ∀ k w, cells slot = .full k w → k = key) (k : κ) (w : ν) :
    Holds capacity (setSlot cells slot (.full key value)) k w ↔
      (k = key ∧ w = value) ∨ (k ≠ key ∧ Holds capacity cells k w) := by
  constructor
  · rintro ⟨s, hs, es⟩
    by_cases eq : s = slot
    · subst eq
      simp only [setSlot, if_true, Cell.full.injEq] at es
      exact Or.inl ⟨es.1.symm, es.2.symm⟩
    · simp only [setSlot, if_neg eq] at es
      refine Or.inr ⟨?_, s, hs, es⟩
      rintro rfl
      exact others s hs eq w es
  · rintro (⟨rfl, rfl⟩ | ⟨different, s, hs, es⟩)
    · exact ⟨slot, bound, by simp [setSlot]⟩
    · have hne : s ≠ slot := by
        rintro rfl
        exact different (own k w es)
      exact ⟨s, hs, by simpa [setSlot, hne] using es⟩

/-- Insert an absent key at the slot where its insertion probe stops. -/
theorem Consistent.insert (consistent : Consistent path capacity cells) {key : κ} {value : ν}
    {slot : Nat} (absent : Absent capacity cells key)
    (stop : FirstStop (Cell.stopsInsert key) (path key) cells slot)
    (notFull : ∀ k w, cells slot ≠ .full k w) :
    Consistent path capacity (setSlot cells slot (.full key value)) := by
  constructor
  · intro s t k v w hs ht es et
    by_cases hsSlot : s = slot <;> by_cases htSlot : t = slot
    · rw [hsSlot, htSlot]
    · simp only [setSlot, hsSlot, if_true, Cell.full.injEq] at es
      simp only [setSlot, if_neg htSlot] at et
      exact absurd ⟨t, ht, es.1 ▸ et⟩ (absent w)
    · simp only [setSlot, htSlot, if_true, Cell.full.injEq] at et
      simp only [setSlot, if_neg hsSlot] at es
      exact absurd ⟨s, hs, et.1 ▸ es⟩ (absent v)
    · simp only [setSlot, if_neg hsSlot] at es
      simp only [setSlot, if_neg htSlot] at et
      exact consistent.unique s t k v w hs ht es et
  · intro s k v hs es
    by_cases hsSlot : s = slot
    · -- the new key: its probe passed only slots that hold other keys
      subst hsSlot
      simp only [setSlot, if_true, Cell.full.injEq] at es
      obtain ⟨n, hn, hstop, before⟩ := stop
      obtain ⟨rfl, rfl⟩ := es
      refine ⟨n, hn, by simp [setSlot, Cell.stopsSearch], fun m hm => ?_⟩
      have hne : path key m ≠ s := by
        intro heq
        rw [← heq, before m hm] at hstop
        cases hstop
      simpa [setSlot, hne] using stopsSearch_le_stopsInsert (before m hm)
    · simp only [setSlot, if_neg hsSlot] at es
      have hk : k ≠ key := by
        rintro rfl
        exact absent v ⟨s, hs, es⟩
      obtain ⟨n, hn, hstop, before⟩ := consistent.reached s k v hs es
      refine ⟨n, hn, by simpa [setSlot, hsSlot] using hstop, fun m hm => ?_⟩
      by_cases hm' : path k m = slot
      · simp [setSlot, hm', Cell.stopsSearch, Ne.symm hk]
      · simpa [setSlot, hm'] using before m hm

/-- Replace the value of a held key. -/
theorem Consistent.replace (consistent : Consistent path capacity cells) {key : κ} {old value : ν}
    {slot : Nat} (held : cells slot = .full key old) :
    Consistent path capacity (setSlot cells slot (.full key value)) := by
  have same : ∀ s k v, setSlot cells slot (.full key value) s = .full k v →
      ∃ w, cells s = .full k w := by
    intro s k v h
    by_cases hs : s = slot
    · simp only [setSlot, hs, if_true, Cell.full.injEq] at h
      exact ⟨old, by rw [hs, held, h.1]⟩
    · exact ⟨v, by simpa [setSlot, hs] using h⟩
  have stops : ∀ s k, (setSlot cells slot (.full key value) s).stopsSearch k =
      (cells s).stopsSearch k := by
    intro s k
    by_cases hs : s = slot
    · simp [setSlot, hs, held, Cell.stopsSearch]
    · simp [setSlot, hs]
  constructor
  · intro s t k v w hs ht es et
    obtain ⟨v', ev⟩ := same s k v es
    obtain ⟨w', ew⟩ := same t k w et
    exact consistent.unique s t k v' w' hs ht ev ew
  · intro s k v hs es
    obtain ⟨v', ev⟩ := same s k v es
    obtain ⟨n, hn, hstop, before⟩ := consistent.reached s k v' hs ev
    exact ⟨n, hn, by rw [stops]; exact hstop, fun m hm => by rw [stops]; exact before m hm⟩

/-- Bury a held key. -/
theorem Consistent.bury (consistent : Consistent path capacity cells) {key : κ} {value : ν}
    {slot : Nat} (bound : slot < capacity) (held : cells slot = .full key value) :
    Consistent path capacity (setSlot cells slot (.tomb key)) := by
  have old : ∀ s k v, setSlot cells slot (.tomb key) s = .full k v →
      s ≠ slot ∧ cells s = .full k v := by
    intro s k v h
    by_cases hs : s = slot
    · simp [setSlot, hs] at h
    · exact ⟨hs, by simpa [setSlot, hs] using h⟩
  constructor
  · intro s t k v w hs ht es et
    exact consistent.unique s t k v w hs ht (old s k v es).2 (old t k w et).2
  · intro s k v hs es
    obtain ⟨hne, es⟩ := old s k v es
    have hk : key ≠ k := by
      rintro rfl
      exact hne (consistent.unique s slot key v value hs bound es held)
    obtain ⟨n, hn, hstop, before⟩ := consistent.reached s k v hs es
    refine ⟨n, hn, by simpa [setSlot, hne] using hstop, fun m hm => ?_⟩
    by_cases hm' : path k m = slot
    · simp [setSlot, hm', Cell.stopsSearch, hk]
    · simpa [setSlot, hm'] using before m hm

theorem Consistent.holds_bury (consistent : Consistent path capacity cells) {key : κ} {value : ν}
    {slot : Nat} (bound : slot < capacity) (held : cells slot = .full key value) (k : κ) (w : ν) :
    Holds capacity (setSlot cells slot (.tomb key)) k w ↔ k ≠ key ∧ Holds capacity cells k w := by
  constructor
  · rintro ⟨s, hs, es⟩
    by_cases eq : s = slot
    · simp [setSlot, eq] at es
    · simp only [setSlot, if_neg eq] at es
      refine ⟨?_, s, hs, es⟩
      rintro rfl
      exact eq (consistent.unique s slot k w value hs bound es held)
  · rintro ⟨different, s, hs, es⟩
    have hne : s ≠ slot := by
      rintro rfl
      rw [held, Cell.full.injEq] at es
      exact different es.1.symm
    exact ⟨s, hs, by simpa [setSlot, hne] using es⟩

end Tables
end ImmixGc.Foundation
