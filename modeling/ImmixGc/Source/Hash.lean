import ImmixGc.Source.Machine

/-!
# The finalizer table: hash.c, murmur.h

Open addressing with a capacity of `mask + 1` slots and the triangular probe
`for (i = hash, j = 1; ; i += j++)`. An `Entry` array is a function on slot indices,
read and written at `i & mask` only. The probing loops have no bound in the source: here
they carry the capacity as a bound, because a probe that has not stopped after `mask + 1`
steps has seen every slot and never stops (`Stop.running`).
-/
namespace ImmixGc.Source

/-- One 4-byte mixing step of `MurmurHash2`. -/
def murmurMix (h k : UInt32) : UInt32 :=
  let m : UInt32 := 0x5bd1e995
  let k := k * m
  let k := k ^^^ (k >>> 24)
  let k := k * m
  (h * m) ^^^ k

def murmurFinal (h : UInt32) : UInt32 :=
  let m : UInt32 := 0x5bd1e995
  let h := h ^^^ (h >>> 13)
  let h := h * m
  h ^^^ (h >>> 15)

/-- The 4-bytes-at-a-time loop of `MurmurHash2` and its switch over the last bytes. -/
def murmurBody (h : UInt32) : List UInt8 → UInt32
  | b0 :: b1 :: b2 :: b3 :: rest =>
    murmurBody (murmurMix h (b0.toUInt32 ||| (b1.toUInt32 <<< 8) ||| (b2.toUInt32 <<< 16) |||
      (b3.toUInt32 <<< 24))) rest
  | [b0, b1, b2] =>
    ((h ^^^ (b2.toUInt32 <<< 16) ^^^ (b1.toUInt32 <<< 8)) ^^^ b0.toUInt32) * 0x5bd1e995
  | [b0, b1] => ((h ^^^ (b1.toUInt32 <<< 8)) ^^^ b0.toUInt32) * 0x5bd1e995
  | [b0] => (h ^^^ b0.toUInt32) * 0x5bd1e995
  | [] => h

def murmurHash2 (data : List UInt8) (seed : UInt32) : UInt32 :=
  murmurFinal (murmurBody (seed ^^^ UInt32.ofNat data.length) data)

/-- The bytes of a pointer as they lie in memory (little-endian). -/
def pointerBytes (key : Nat) : List UInt8 :=
  (List.range 8).map fun i => UInt8.ofNat (key / 256 ^ i % 256)

/-- `HASH(x)`. -/
def hashOf (key : Nat) : Nat := (murmurHash2 (pointerBytes key) 0x33da085c).toNat

inductive Status where
  | free | allocated | deleted
  deriving DecidableEq, Repr

structure Entry where
  status : Status
  key : Nat
  value : Nat
  deriving DecidableEq, Repr

/-- What `calloc` leaves in every slot. -/
def Entry.zero : Entry := ⟨.free, null, null⟩

def minSize : Nat := 8
def maxSize : Nat := 2 ^ 63
def sizeofEntry : Nat := 24

structure Hash where
  entries : Nat → Entry
  mask : Nat
  used : Nat
  deleted : Nat

namespace Hash

/-- `for (i = hash, j = 1; ; i += j++)` over `entries[i & mask]`, until `stop` holds. -/
def probe (stop : Entry → Bool) (entries : Nat → Entry) (mask : Nat) :
    Nat → Nat → Nat → Result Nat
  | 0, _, _ => .error .running
  | fuel + 1, i, j =>
    if stop (entries (i &&& mask)) then .ok (i &&& mask)
    else probe stop entries mask fuel (sizeAdd i j) (j + 1)

/-- `lookupForInsert`: the slot of the first entry that is not allocated or has the key. -/
def lookupForInsert (self : Hash) (key : Nat) : Result Nat :=
  probe (fun entry => entry.status != .allocated || entry.key == key)
    self.entries self.mask (self.mask + 1) (hashOf key) 1

/-- The loop shared by `GC_Hash_search` and `GC_Hash_delete`. -/
def lookup (self : Hash) (key : Nat) : Result Nat :=
  probe (fun entry => entry.status == .free || entry.key == key)
    self.entries self.mask (self.mask + 1) (hashOf key) 1

/-- `while (new_capacity < capacity) new_capacity *= 2`; 64 doublings pass every `size_t`. -/
def growCapacity (capacity : Nat) : Nat → Nat → Nat
  | 0, newCapacity => newCapacity
  | fuel + 1, newCapacity =>
    if newCapacity < capacity then growCapacity capacity fuel (newCapacity * 2) else newCapacity

def newCapacityFor (capacity : Nat) : Nat :=
  growCapacity (if capacity > maxSize then maxSize else capacity) 64 minSize

/-- The rehash loop of `resize`: `count` old entries from `index` on, into `self`. -/
def rehash (old : Nat → Entry) : Nat → Nat → Hash → Result Hash
  | 0, _, self => .ok self
  | count + 1, index, self =>
    if (old index).status = .allocated then do
      let slot ← lookupForInsert self (old index).key
      rehash old count (index + 1)
        { self with
          entries := store self.entries slot ⟨.allocated, (old index).key, (old index).value⟩
          used := self.used + 1 }
    else rehash old count (index + 1) self

/-- `calloc(new_capacity, sizeof(ENTRY))`: fails when the product does not fit a `size_t`. -/
def calloc (newCapacity : Nat) : Result (Nat → Entry) :=
  if newCapacity * sizeofEntry < sizeModulus then .ok (fun _ => Entry.zero)
  else .error (.abort "GC: calloc failed\n")

/-- `resize` of a table that has entries. -/
def resize (self : Hash) (capacity : Nat) : Result Hash := do
  let newCapacity := newCapacityFor capacity
  let entries ← calloc newCapacity
  rehash self.entries (self.mask + 1) 0
    { entries := entries, mask := newCapacity - 1, used := 0, deleted := 0 }

/-- `GC_Hash_create`: `resize` of a table whose `entries` is `NULL` returns early. -/
def create (capacity : Nat) : Result Hash := do
  let entries ← calloc (newCapacityFor capacity)
  .ok { entries := entries, mask := newCapacityFor capacity - 1, used := 0, deleted := 0 }

/-- `GC_Hash_search`; `NULL` when the key is absent. -/
def search (self : Hash) (key : Nat) : Result Nat := do
  let slot ← lookup self key
  .ok (if (self.entries slot).status = .allocated then (self.entries slot).value else null)

/-- `GC_Hash_insert`. -/
def insert (self : Hash) (key value : Nat) : Result Hash := do
  let slot ← lookupForInsert self key
  match (self.entries slot).status with
  | .allocated =>
    .ok { self with entries := store self.entries slot { self.entries slot with value := value } }
  | .free =>
    if self.used ≥ self.mask - self.mask / 4 then do
      let self ← resize self (sizeMul self.used 2)
      let slot ← lookupForInsert self key
      .ok { self with
        entries := store self.entries slot ⟨.allocated, key, value⟩, used := self.used + 1 }
    else
      .ok { self with
        entries := store self.entries slot ⟨.allocated, key, value⟩, used := self.used + 1 }
  | .deleted =>
    .ok { self with
      entries := store self.entries slot ⟨.allocated, key, value⟩, deleted := sizeSub self.deleted 1 }

/-- `clearTombstones`: rehash when tombstones reach a quarter of the slots. -/
def clearTombstones (self : Hash) : Result Hash :=
  if self.deleted ≥ (self.mask + 1) / 4 then resize self self.used else .ok self

/-- `GC_Hash_delete`: the removed value, or `NULL`. -/
def delete (self : Hash) (key : Nat) : Result (Nat × Hash) := do
  let slot ← lookup self key
  if (self.entries slot).status = .allocated then do
    let value := (self.entries slot).value
    let self ← clearTombstones
      { self with
        entries := store self.entries slot { self.entries slot with status := .deleted }
        deleted := self.deleted + 1 }
    .ok (value, self)
  else .ok (null, self)

/-- The loop of `GC_Hash_deleteIf` over `count` slots from `index` on. The callback acts
on a state that does not hold the table. -/
def deleteIfLoop {σ : Type} (callback : Nat → Nat → σ → Result (Bool × σ)) :
    Nat → Nat → Hash → σ → Result (Hash × σ)
  | 0, _, self, state => .ok (self, state)
  | count + 1, index, self, state =>
    if (self.entries index).status = .allocated then do
      let (remove, state) ← callback (self.entries index).key (self.entries index).value state
      if remove then
        deleteIfLoop callback count (index + 1)
          { self with
            entries := store self.entries index { self.entries index with status := .deleted }
            deleted := self.deleted + 1 } state
      else deleteIfLoop callback count (index + 1) self state
    else deleteIfLoop callback count (index + 1) self state

/-- `GC_Hash_deleteIf`. -/
def deleteIf {σ : Type} (callback : Nat → Nat → σ → Result (Bool × σ)) (self : Hash)
    (state : σ) : Result (Hash × σ) := do
  let (self, state) ← deleteIfLoop callback (self.mask + 1) 0 self state
  let self ← clearTombstones self
  .ok (self, state)

end Hash

/-! ## Callbacks that call the table

`GC_Hash_deleteIf` keeps `entry` and `limit`, pointers into the entries array, while its
callback may insert into the same table or delete from it. A nested `resize` frees that array. -/

/-- What a callback does before it answers. -/
inductive Script where
  | answer (remove : Bool)
  | insert (key value : Nat) (next : Script)
  | delete (key : Nat) (next : Nat → Script)

inductive TableEvent where
  | called (key value : Nat)
  | inserted (key value : Nat)
  | deleted (key value : Nat)
  | removed (key : Nat)
  deriving DecidableEq, Repr

/-- A table with a number for the allocation that `entries` points to, and what happened
since the loop began. A callback sees the events. -/
structure Pinned where
  table : Hash
  array : Nat
  events : List TableEvent

namespace Hash

/-- Whether `GC_Hash_insert` calls `resize`. -/
def insertResizes (self : Hash) (key : Nat) : Result Bool := do
  let slot ← lookupForInsert self key
  .ok ((self.entries slot).status == .free && decide (self.used ≥ self.mask - self.mask / 4))

/-- Whether `GC_Hash_delete` calls `resize`. -/
def deleteResizes (self : Hash) (key : Nat) : Result Bool := do
  let slot ← lookup self key
  .ok ((self.entries slot).status == .allocated && decide (self.deleted + 1 ≥ (self.mask + 1) / 4))

def runScript : Script → Pinned → Result (Bool × Pinned)
  | .answer remove, s => .ok (remove, s)
  | .insert key value next, s => do
    let resizes ← insertResizes s.table key
    let table ← insert s.table key value
    runScript next
      ⟨table, if resizes then s.array + 1 else s.array, s.events ++ [.inserted key value]⟩
  | .delete key next, s => do
    let resizes ← deleteResizes s.table key
    let deleted ← delete s.table key
    runScript (next deleted.1)
      ⟨deleted.2, if resizes then s.array + 1 else s.array, s.events ++ [.deleted key deleted.1]⟩

/-- The loop of `GC_Hash_deleteIf` through pointers into allocation number `array`. -/
def deleteIfPinned (callback : List TableEvent → Nat → Nat → Script) (array : Nat) :
    Nat → Nat → Pinned → Result Pinned
  | 0, _, s => .ok s
  | count + 1, index, s =>
    if s.array ≠ array then .error (.undefined "read of a freed entries array")
    else if (s.table.entries index).status = .allocated then do
      let key := (s.table.entries index).key
      let value := (s.table.entries index).value
      let answered ← runScript (callback s.events key value)
        { s with events := s.events ++ [.called key value] }
      let s := answered.2
      if answered.1 then
        if s.array ≠ array then .error (.undefined "write to a freed entries array")
        else
          deleteIfPinned callback array count (index + 1)
            { s with
              table := { s.table with
                entries := store s.table.entries index
                  { s.table.entries index with status := .deleted }
                deleted := s.table.deleted + 1 }
              events := s.events ++ [.removed key] }
      else deleteIfPinned callback array count (index + 1) s
    else deleteIfPinned callback array count (index + 1) s

/-- `GC_Hash_deleteIf` with a callback that calls the table. -/
def deleteIfReentrant (callback : List TableEvent → Nat → Nat → Script) (self : Hash) :
    Result (Hash × List TableEvent) := do
  let s ← deleteIfPinned callback 0 (self.mask + 1) 0 ⟨self, 0, []⟩
  let table ← clearTombstones s.table
  .ok (table, s.events)

end Hash
end ImmixGc.Source
