import ImmixGc.Source.Block
import ImmixGc.Source.ChunkList
import ImmixGc.Source.Hash

/-!
# The collector's state: global_allocator.h, local_allocator.h, collector.h, block_list.h

One record holds what the C program keeps in its globals and its heap. Payload words,
small object headers, holes and the client's own memory live in `memory`; block headers in
`block`; chunk headers in `global.largeChunkList.chunk`. The client is present as data:
`rootScript` is what its collect callback will register at each coming collection, and
`History` records what happened. The collector's functions never read the history; only
`clientStore`, which decides whether a write of the client stays in memory it owns, does.
-/
namespace ImmixGc.Source

structure BlockList where
  first : Nat
  last : Nat
  size : Nat
  deriving DecidableEq, Repr

namespace BlockList

def clear : BlockList := ⟨null, null, 0⟩

def isEmpty (self : BlockList) : Bool := self.first == null

/-- `BlockList_push`: the links are in the block headers. -/
def push (self : BlockList) (block : Nat → Block) (item : Nat) : (Nat → Block) × BlockList :=
  let block := store block item { block item with next := null }
  if self.isEmpty then (block, ⟨item, item, self.size + 1⟩)
  else
    (store block self.last { block self.last with next := item },
      ⟨self.first, item, self.size + 1⟩)

/-- `BlockList_shift`: `NULL` when the list is empty; `last` is left as it is. -/
def shift (self : BlockList) (block : Nat → Block) : Nat × BlockList :=
  if self.first ≠ null then
    (self.first, ⟨(block self.first).next, self.last, sizeSub self.size 1⟩)
  else (null, self)

end BlockList

structure GlobalAllocator where
  smallHeapSize : Nat
  smallHeapStart : Nat
  smallHeapStop : Nat
  freeList : BlockList
  recyclableList : BlockList
  largeHeapSize : Nat
  largeHeapStart : Nat
  largeHeapStop : Nat
  largeChunkList : ChunkList
  finalizers : Hash
  memoryLimit : Nat
  freeSpaceDivisor : Nat
  allocatedBytesSinceCollect : Nat
  totalAllocatedBytes : Nat

structure LocalAllocator where
  block : Nat
  cursor : Nat
  limit : Nat
  next : Nat
  overflowBlock : Nat
  overflowCursor : Nat
  overflowLimit : Nat
  deriving DecidableEq, Repr

/-- A region of root words, as the mark stack holds it: `sp` and `bottom`. -/
abbrev Region := Nat × Nat

structure Collector where
  roots : List Region
  isCollecting : Bool

/-- An object the client was given: its header, its size with the header, and a serial
number that tells it from other objects that had the same address. -/
structure Allocation where
  serial : Nat
  object : Nat
  size : Nat
  deriving DecidableEq, Repr

/-- What happened so far. `live` holds the objects that were handed out, not freed, and
marked by every collection since; `registered` and `called` are pairs of a serial number
and a callback, `finalizerCalls` the calls themselves: the header and the callback. The three
flags record that a step took one of the branches named there. -/
structure History where
  live : List Allocation
  serials : Nat
  registered : List (Nat × Nat)
  called : List (Nat × Nat)
  finalizerCalls : List (Nat × Nat)
  /-- `LocalAllocator_initCursor` took a free block while `self->next` was set. -/
  staleNext : Bool
  /-- `ChunkList_merge` used a `Chunk_size` that does not fit an `int`. -/
  shortLimit : Bool
  /-- `recycleBlocks` published a hole inside an object that line walks still visit. -/
  holeInObject : Bool

structure Gc where
  memory : Memory
  block : Nat → Block
  global : GlobalAllocator
  localAllocator : Nat → LocalAllocator
  /-- `GC_local_allocators`. -/
  localAllocators : List Nat
  /-- `pthread_getspecific(GC_local_allocator_key)`. -/
  current : Nat
  collector : Collector
  rootScript : List (List Region)
  history : History

/-- What the model does not decide: libm's `ceil(log2(x))`, the client's finalizers, and
the bound given to unbounded loops. -/
inductive Action where
  | store (address value : Nat)
  | malloc (size atomic : Nat) (destination : Nat)
  deriving DecidableEq, Repr

structure Env where
  fuel : Nat
  ceilLog2 : Nat → Nat
  finalizer : Nat → Nat → List Action

namespace GlobalAllocator

def inSmallHeap (self : GlobalAllocator) (pointer : Nat) : Bool :=
  self.smallHeapStart ≤ pointer && pointer < self.smallHeapStop

def inLargeHeap (self : GlobalAllocator) (pointer : Nat) : Bool :=
  self.largeHeapStart ≤ pointer && pointer < self.largeHeapStop

def heapSize (self : GlobalAllocator) : Nat := sizeAdd self.smallHeapSize self.largeHeapSize

def incrementCounters (self : GlobalAllocator) (increment : Nat) : GlobalAllocator :=
  { self with
    allocatedBytesSinceCollect := sizeAdd self.allocatedBytesSinceCollect increment
    totalAllocatedBytes := sizeAdd self.totalAllocatedBytes increment }

def resetCounters (self : GlobalAllocator) : GlobalAllocator :=
  { self with allocatedBytesSinceCollect := 0 }

/-- The blocks `while (block < stop)` visits from `small_heap_start` on. -/
def blocks (self : GlobalAllocator) : List Nat :=
  (List.range ((self.smallHeapStop - self.smallHeapStart + (blockSize - 1)) / blockSize)).map
    fun i => self.smallHeapStart + i * blockSize

end GlobalAllocator

namespace History

def empty : History := ⟨[], 0, [], [], [], false, false, false⟩

def allocated (self : History) (object : Nat) (size : Nat) : History :=
  { self with
    live := ⟨self.serials, object, size⟩ :: self.live
    serials := self.serials + 1 }

def retained (self : History) (isMarked : Nat → Bool) : History :=
  { self with live := self.live.filter fun a => isMarked a.object }

def freed (self : History) (object : Nat) : History :=
  { self with live := self.live.filter fun a => a.object != object }

/-- The serial number of the object last given out at an address (the number of serials if
there is none). -/
def serialOf (self : History) (object : Nat) : Nat :=
  match self.live.find? fun a => a.object == object with
  | some a => a.serial
  | none => self.serials

def register (self : History) (object callback : Nat) : History :=
  { self with registered := self.registered ++ [(self.serialOf object, callback)] }

/-- A finalizer that moves to another object keeps its registration. -/
def transfer (self : History) (old new : Nat) : History :=
  { self with
    registered := self.registered.map fun r =>
      if r.1 = self.serialOf old then (self.serialOf new, r.2) else r }

def call (self : History) (object callback : Nat) : History :=
  { self with
    called := self.called ++ [(self.serialOf object, callback)]
    finalizerCalls := self.finalizerCalls ++ [(object, callback)] }

end History

namespace Gc

/-- The `Object` at an address of either heap. -/
def isMarked (g : Gc) (object : Nat) : Bool :=
  if g.global.inLargeHeap object then
    (g.global.largeChunkList.chunk (object - chunkHeaderSize)).isMarked
  else Object.isMarked g.memory object

def objectSize (g : Gc) (object : Nat) : Nat :=
  if g.global.inLargeHeap object then
    (g.global.largeChunkList.chunk (object - chunkHeaderSize)).object.size
  else Object.size g.memory object

def objectAtomic (g : Gc) (object : Nat) : Nat :=
  if g.global.inLargeHeap object then
    (g.global.largeChunkList.chunk (object - chunkHeaderSize)).object.atomic
  else Object.atomic g.memory object

def setLocal (g : Gc) (self : Nat) (allocator : LocalAllocator) : Gc :=
  { g with localAllocator := store g.localAllocator self allocator }

/-- A word the client may write: its own memory, or the payload of an object it was given. -/
def clientOwns (g : Gc) (address : Nat) : Bool :=
  address % wordSize == 0 &&
    ((!g.global.inSmallHeap address && !g.global.inLargeHeap address) ||
      g.history.live.any fun a =>
        a.object + sizeofObject ≤ address && address < a.object + a.size)

/-- A write of the client. -/
def clientStore (g : Gc) (address value : Nat) : Result Gc :=
  if g.clientOwns address then .ok { g with memory := g.memory.store address value }
  else .error (.undefined "the client writes a word it does not own")

end Gc
end ImmixGc.Source
