import ImmixGc.Source.GlobalAllocator

/-!
# The local allocator: local_allocator.c, local_allocator.h

A `LocalAllocator` struct is named by its address `self`. A call may collect, and a
collection resets every registered allocator, `self` included, before the call goes on.
-/
namespace ImmixGc.Source

namespace LocalAllocator

/-- `LocalAllocator_initCursor`. The free branch leaves `next` alone. -/
def initCursor (collect : Gc → Result Gc) (self : Nat) (g : Gc) : Result Gc := do
  let (block, g) ← GlobalAllocator.nextBlock collect g
  let g := g.setLocal self { g.localAllocator self with block := block }
  if (g.block block).isFree then
    .ok { g with
      localAllocator := store g.localAllocator self
        { g.localAllocator self with cursor := Block.start block, limit := Block.stop block }
      history := { g.history with
        staleNext := g.history.staleNext || (g.localAllocator self).next != null } }
  else if (g.block block).isRecyclable then do
    let hole ← (g.block block).firstFreeLine block
    .ok (g.setLocal self
      { g.localAllocator self with cursor := hole, limit := g.memory.load hole, next := g.memory.load (hole + 8) })
  else .error (.abort "GC: can't init cursors into unavailable block\n")

/-- `LocalAllocator_findNextHole`. -/
def findNextHole (self : Nat) (g : Gc) : Bool × Gc :=
  let a := g.localAllocator self
  if a.next ≠ null then
    (true, g.setLocal self { a with cursor := a.next, limit := g.memory.load a.next, next := g.memory.load (a.next + 8) })
  else (false, g)

/-- `LocalAllocator_initOverflowCursor`. -/
def initOverflowCursor (collect : Gc → Result Gc) (self : Nat) (g : Gc) : Result Gc := do
  let (block, g) ← GlobalAllocator.nextFreeBlock collect g
  .ok (g.setLocal self
    { g.localAllocator self with
      overflowBlock := block
      overflowCursor := Block.start block
      overflowLimit := Block.stop block })

/-- `GC_LocalAllocator_reset`. -/
def reset (collect : Gc → Result Gc) (self : Nat) (g : Gc) : Result Gc := do
  let g ← initCursor collect self g
  initOverflowCursor collect self g

/-- The bump that `tryAllocateSmall` and `overflowAllocateSmall` share: record the object
in its line and clear the size of the object that would follow it. -/
def bump (block cursor limit size : Nat) (g : Gc) : Result Gc := do
  let header ← lineUpdate (g.block block) block cursor
  .ok { g with
    block := store g.block block header
    memory := if cursor + size < limit then g.memory.store (cursor + size) 0 else g.memory }

/-- `LocalAllocator_overflowAllocateSmall`. -/
def overflowAllocateSmall (collect : Gc → Result Gc) (self : Nat) (size : Nat) :
    Nat → Gc → Result (Nat × Gc)
  | 0, _ => .error .running
  | fuel + 1, g =>
    let a := g.localAllocator self
    if a.overflowCursor + size ≤ a.overflowLimit then do
      let g ← bump a.overflowBlock a.overflowCursor a.overflowLimit size g
      .ok (a.overflowCursor, g.setLocal self { a with overflowCursor := a.overflowCursor + size })
    else do
      let g ← initOverflowCursor collect self g
      overflowAllocateSmall collect self size fuel g

/-- `LocalAllocator_tryAllocateSmall`; `NULL` at the end of the block. -/
def tryAllocateSmall (collect : Gc → Result Gc) (self : Nat) (size : Nat) :
    Nat → Gc → Result (Nat × Gc)
  | 0, _ => .error .running
  | fuel + 1, g =>
    let a := g.localAllocator self
    if a.cursor + size ≤ a.limit then do
      let g ← bump a.block a.cursor a.limit size g
      .ok (a.cursor, g.setLocal self { a with cursor := a.cursor + size })
    else if size > lineSize ∧ a.limit - a.cursor > lineSize then
      overflowAllocateSmall collect self size fuel g
    else
      let (found, g) := findNextHole self g
      if found then tryAllocateSmall collect self size fuel g else .ok (null, g)

/-- The loop of `GC_LocalAllocator_allocateSmall`. -/
def allocateSmallLoop (collect : Gc → Result Gc) (self : Nat) (size rsize atomic : Nat) :
    Nat → Gc → Result (Nat × Gc)
  | 0, _ => .error .running
  | fuel + 1, g => do
    let (object, g) ← tryAllocateSmall collect self rsize fuel g
    if object ≠ null then
      .ok (Object.mutatorAddress object,
        { g with
          memory := Object.allocate g.memory object rsize atomic
          global := g.global.incrementCounters size
          history := g.history.allocated object rsize })
    else do
      let g ← initCursor collect self g
      allocateSmallLoop collect self size rsize atomic fuel g

/-- `GC_LocalAllocator_allocateSmall`. -/
def allocateSmall (env : Env) (collect : Gc → Result Gc) (self : Nat) (size atomic : Nat)
    (g : Gc) : Result (Nat × Gc) := do
  let rsize := roundToNextMultiple (sizeAdd size sizeofObject) wordSize
  check (rsize ≤ largeObjectSize) "rsize <= LARGE_OBJECT_SIZE"
  allocateSmallLoop collect self size rsize atomic env.fuel g

end LocalAllocator
end ImmixGc.Source
