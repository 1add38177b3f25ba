import ImmixGc.Source.Machine

/-!
# Large objects: chunk_list.h

A chunk is a header of 32 bytes (`next`, `allocated`, and an `Object`) in front of its
payload. Chunk headers are records in the store `chunk`, threaded by their `next` field
from `first`. `Chunk_size` returns an `int` in the source, and `ChunkList_limit` adds that
`int` to a pointer: both conversions are kept.

The records stand for the bytes in the heap as long as no two headers overlap, so as long as
every object has the 16 bytes of its own header: chunks are then 32 bytes apart. A split size that
wrapped to 0 or 8 breaks this, where the source writes the second header into the first one.
-/
namespace ImmixGc.Source

structure ChunkObject where
  size : Nat
  marked : Nat
  atomic : Nat
  deriving DecidableEq, Repr

structure Chunk where
  next : Nat
  allocated : Nat
  object : ChunkObject
  deriving DecidableEq, Repr

def sizeofChunk : Nat := 32
def chunkHeaderSize : Nat := 16
def chunkMinSize : Nat := 64

namespace Chunk

def init (size : Nat) : Chunk := ⟨null, 0, ⟨size, 0, 0⟩⟩

/-- `Chunk_allocate`: `atomic` is an `int` stored in one byte. -/
def allocate (self : Chunk) (atomic : Nat) : Chunk :=
  { self with allocated := 1, object := { self.object with atomic := atomic % 256 } }

def isAllocated (self : Chunk) : Bool := self.allocated != 0

/-- `Chunk_size`: declared `int`. -/
def size (self : Chunk) : Int := intOf (sizeAdd self.object.size chunkHeaderSize)

def setMarked (self : Chunk) (value : Nat) : Chunk :=
  { self with object := { self.object with marked := value } }

def mark (self : Chunk) : Chunk := self.setMarked 1

def unmark (self : Chunk) : Chunk := self.setMarked 0

def isMarked (self : Chunk) : Bool := self.object.marked == 1

def mutatorAddress (chunk : Nat) : Nat := chunk + sizeofChunk

/-- `Chunk_contains`. -/
def contains (self : Chunk) (chunk pointer : Nat) : Bool :=
  mutatorAddress chunk ≤ pointer &&
    pointer < sizeAdd (sizeAdd chunk chunkHeaderSize) self.object.size

end Chunk

/-- `chunk` gives the header at each address. It says what the heap holds for lists whose headers
lie apart, which requests of up to 2^64 - 24 bytes keep so. -/
structure ChunkList where
  chunk : Nat → Chunk
  first : Nat
  last : Nat
  size : Nat

namespace ChunkList

def clear (chunk : Nat → Chunk) : ChunkList := ⟨chunk, null, null, 0⟩

def isEmpty (self : ChunkList) : Bool := self.first == null

def setNext (self : ChunkList) (chunk next : Nat) : ChunkList :=
  { self with chunk := store self.chunk chunk { self.chunk chunk with next := next } }

def push (self : ChunkList) (chunk : Nat) : ChunkList :=
  let self := self.setNext chunk null
  let self := if self.isEmpty then { self with first := chunk } else self.setNext self.last chunk
  { self with last := chunk, size := self.size + 1 }

def insert (self : ChunkList) (chunk after : Nat) : ChunkList :=
  let self :=
    if after = self.last then
      let self := self.setNext chunk null
      let self := self.setNext self.last chunk
      { self with last := chunk }
    else
      let self := self.setNext chunk (self.chunk after).next
      self.setNext after chunk
  { self with size := self.size + 1 }

/-- `ChunkList_split`: cut `chunk` down to an object of `size` bytes and insert the rest as
a free chunk, unless the rest is too small. The source writes the header of the rest into that of
`chunk` when `size` is below 16; here it is a record of its own. -/
def split (self : ChunkList) (chunk : Nat) (size : Nat) : Result ChunkList :=
  let remaining := sizeSub (self.chunk chunk).object.size size
  if remaining < chunkMinSize then .ok self
  else
    let header := self.chunk chunk
    let self :=
      { self with
        chunk := store self.chunk chunk { header with object := { header.object with size := size } } }
    let freeChunk := sizeAdd (sizeAdd chunk chunkHeaderSize) size
    let self :=
      { self with
        chunk := store self.chunk freeChunk (Chunk.init (sizeSub remaining chunkHeaderSize)) }
    let self := insert self freeChunk chunk
    if (self.chunk freeChunk).next ≠ null then do
      check (sizeAdd freeChunk remaining == (self.chunk freeChunk).next)
        "((char *)free_chunk + remaining) == ((char *)(free_chunk->next))"
      .ok self
    else .ok self

/-- `ChunkList_find`; the walk visits at most `fuel` chunks. -/
def find (self : ChunkList) (pointer : Nat) : Nat → Nat → Result Nat
  | 0, _ => .error .running
  | fuel + 1, chunk =>
    if chunk = null then .ok null
    else if (self.chunk chunk).contains chunk pointer then .ok chunk
    else find self pointer fuel (self.chunk chunk).next

/-- `ChunkList_limit`: a pointer plus an `int`. -/
def limit (self : ChunkList) : Nat :=
  if self.last = null then null
  else (((self.last : Int) + (self.chunk self.last).size) % (sizeModulus : Int)).toNat

/-- `ChunkList_merge`. -/
def merge (self : ChunkList) (chunk limit : Nat) (count : Nat) : Result ChunkList := do
  let stop := if limit = null then self.limit else limit
  let size := sizeSub (sizeSub stop chunk) chunkHeaderSize
  let header := self.chunk chunk
  check (size > header.object.size) "size > chunk->object.size"
  .ok { self with
    chunk := store self.chunk chunk
      { header with next := limit, object := { header.object with size := size } }
    last := if limit = null then chunk else self.last
    size := sizeSub self.size count }

/-- The inner loop of `ChunkList_sweep`: the first marked chunk from `limit` on, and the
number of unmarked chunks passed. -/
def unmarkedRun (self : ChunkList) : Nat → Nat → Nat → Result (Nat × Nat)
  | 0, _, _ => .error .running
  | fuel + 1, limit, count =>
    if limit ≠ null ∧ (self.chunk limit).isMarked = false then
      unmarkedRun self fuel (self.chunk limit).next (count + 1)
    else .ok (limit, count)

/-- The outer loop of `ChunkList_sweep`. -/
def sweepFrom : Nat → Nat → ChunkList → Result ChunkList
  | 0, _, _ => .error .running
  | fuel + 1, chunk, self =>
    if chunk = null then .ok self
    else if (self.chunk chunk).isMarked then sweepFrom fuel (self.chunk chunk).next self
    else do
      let self := { self with chunk := store self.chunk chunk { self.chunk chunk with allocated := 0 } }
      let (limit, count) ← unmarkedRun self fuel (self.chunk chunk).next 0
      if limit ≠ (self.chunk chunk).next then do
        let self ← merge self chunk limit count
        sweepFrom fuel limit self
      else sweepFrom fuel limit self

def sweep (fuel : Nat) (self : ChunkList) : Result ChunkList := sweepFrom fuel self.first self

/-- The loop of `ChunkList_validate`, `count` chunks passed. -/
def validateFrom (self : ChunkList) (heapStop : Nat) : Nat → Nat → Nat → Result Unit
  | 0, _, _ => .error .running
  | fuel + 1, chunk, count =>
    if chunk = null then .ok ()
    else
      let actual := sizeAdd (sizeAdd chunk chunkHeaderSize) (self.chunk chunk).object.size
      if (self.chunk chunk).next = null then
        if actual ≠ heapStop then
          .error (.abort "ASSERTION FAILED: heap_stop %p == chunk+header+size %p\n")
        else if chunk ≠ self.last then
          .error (.abort "ASSERTION FAILED: chunk %p == self->last %p\n")
        else if count + 1 ≠ self.size then
          .error (.abort "ASSERTION FAILED: count %zu == self->size %zu\n")
        else .ok ()
      else if actual ≠ (self.chunk chunk).next then
        .error (.abort "ASSERTION FAILED: chunk->next %p == chunk+header+size %p\n")
      else validateFrom self heapStop fuel (self.chunk chunk).next (count + 1)

/-- `ChunkList_validate`. -/
def validate (self : ChunkList) (heapStop : Nat) (fuel : Nat) : Result Unit :=
  validateFrom self heapStop fuel self.first 0

end ChunkList
end ImmixGc.Source
