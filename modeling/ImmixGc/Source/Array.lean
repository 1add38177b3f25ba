import ImmixGc.Source.Machine

/-!
# The registry of local allocators: array.h

`cursor` and `limit`, pointers into `buffer` in the source, are slot numbers. The buffer is a
function on all slot numbers: a slot from `limit` on stands for whatever lies behind the
allocated block. Every operation returns the slots it touched beside its result.
-/
namespace ImmixGc.Source

structure Array where
  capacity : Nat
  buffer : Nat → Nat
  cursor : Nat
  limit : Nat

/-- A slot that was read or written, and the capacity at that time. -/
structure Touch where
  slot : Nat
  capacity : Nat
  deriving DecidableEq, Repr

/-- What one call of `realloc` does: whether it finds memory, and what it leaves in the slots
that the old block did not have. -/
structure Realloc where
  granted : Bool
  fresh : Nat → Nat

/-- `realloc` of a block with `kept` slots. No block has more than `PTRDIFF_MAX` bytes. -/
def Realloc.call (self : Realloc) (buffer : Nat → Nat) (kept bytes : Nat) : Result (Nat → Nat) :=
  if self.granted = true ∧ bytes < 2 ^ 63 then
    .ok fun slot => if slot < kept ∧ slot < bytes / wordSize then buffer slot else self.fresh slot
  else .error (.abort "GC: realloc")

namespace Array

/-- `Array_size`. -/
def size (self : Array) : Nat := self.cursor

/-- `Array_isEmpty`. -/
def isEmpty (self : Array) : Bool := self.cursor == 0

/-- `Array_resize`. The size in bytes is a `size_t`. -/
def resize (self : Array) (newCapacity : Nat) (realloc : Realloc) : Result Array := do
  let buffer ← realloc.call self.buffer self.capacity (sizeMul newCapacity wordSize)
  .ok { capacity := newCapacity, buffer := buffer, cursor := self.size, limit := newCapacity }

/-- `Array_init`: the buffer is `NULL`, a block without slots. -/
def init (capacity : Nat) (realloc : Realloc) : Result Array := do
  let self ← resize ⟨0, fun _ => null, 0, 0⟩ capacity realloc
  .ok { self with cursor := 0 }

/-- `Array_get`. The index is a `long`. -/
def get (self : Array) (index : Int) : Nat × List Touch :=
  if index < 0 ∨ index ≥ self.size then (null, [])
  else (self.buffer index.toNat, [⟨index.toNat, self.capacity⟩])

/-- `while (cursor < self->cursor)` of `Array_each`: the items the callback is given. -/
def eachFrom (self : Array) : Nat → Nat → List Nat × List Touch
  | 0, _ => ([], [])
  | count + 1, cursor =>
    let (items, touched) := eachFrom self count (cursor + 1)
    (self.buffer cursor :: items, ⟨cursor, self.capacity⟩ :: touched)

/-- `Array_each`. -/
def each (self : Array) : List Nat × List Touch := eachFrom self self.cursor 0

/-- `Array_push`. The doubling is done with a `long`. -/
def push (self : Array) (item : Nat) (realloc : Realloc) : Result (Array × List Touch) := do
  let self ←
    if self.cursor = self.limit then
      if self.capacity * 2 ≥ 2 ^ 63 then .error (.undefined "signed overflow")
      else resize self (self.capacity * 2) realloc
    else .ok self
  .ok ({ self with buffer := store self.buffer self.cursor item, cursor := self.cursor + 1 },
    [⟨self.cursor, self.capacity⟩])

/-- `Array_pop`; `NULL` when the array is empty. -/
def pop (self : Array) : Nat × Array × List Touch :=
  if self.isEmpty then (null, self, [])
  else
    (self.buffer (self.cursor - 1), { self with cursor := self.cursor - 1 },
      [⟨self.cursor - 1, self.capacity⟩])

/-- `while (cursor < self->limit) *cursor = *(cursor + 1)` of `Array_delete`, for the `count`
slots from `cursor` to the limit. -/
def shift (capacity : Nat) : Nat → Nat → (Nat → Nat) → (Nat → Nat) × List Touch
  | 0, _, buffer => (buffer, [])
  | count + 1, cursor, buffer =>
    let (shifted, touched) := shift capacity count (cursor + 1)
      (store buffer cursor (buffer (cursor + 1)))
    (shifted, ⟨cursor + 1, capacity⟩ :: ⟨cursor, capacity⟩ :: touched)

/-- The outer loop of `Array_delete`, for the `count` slots from `cursor` to the last item. -/
def deleteFrom (self : Array) (item : Nat) : Nat → Nat → Array × List Touch
  | 0, _ => (self, [])
  | count + 1, cursor =>
    if self.buffer cursor = item then
      let (buffer, touched) := shift self.capacity (self.limit - cursor) cursor self.buffer
      ({ self with buffer := buffer, cursor := self.cursor - 1 },
        ⟨cursor, self.capacity⟩ :: touched)
    else
      let (deleted, touched) := deleteFrom self item count (cursor + 1)
      (deleted, ⟨cursor, self.capacity⟩ :: touched)

/-- `Array_delete`. -/
def delete (self : Array) (item : Nat) : Array × List Touch := deleteFrom self item self.cursor 0

/-- `Array_clear`. -/
def clear (self : Array) : Array := if self.isEmpty then self else { self with cursor := 0 }

end Array
end ImmixGc.Source
