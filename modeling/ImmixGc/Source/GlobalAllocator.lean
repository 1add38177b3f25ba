import ImmixGc.Source.State

/-!
# The global allocator: global_allocator.c, global_allocator.h

`GC_collect` is a symbol the client defines; the functions that may call it take it as a
parameter. Every lock of the source is taken and released inside one call and is left out.
-/
namespace ImmixGc.Source

namespace GlobalAllocator

/-- The block loops of `GC_GlobalAllocator_init` and `GlobalAllocator_growSmall`:
`Block_init` and `BlockList_push` for each block in turn. -/
def pushBlocks (block : Nat → Block) (freeList : BlockList) :
    List Nat → (Nat → Block) × BlockList
  | [] => (block, freeList)
  | item :: rest =>
    let (block, freeList) := freeList.push (store block item Block.init) item
    pushBlocks block freeList rest

/-- `GC_mapAndAlign`, given the address `mmap` returned. -/
def mapAndAlign (mapped alignmentSize : Nat) : Nat :=
  let alignmentMask := sizeModulus - 1 - (alignmentSize - 1)
  if mapped &&& alignmentMask ≠ mapped then Block.from mapped + blockSize else mapped

/-- `GC_GlobalAllocator_init`: the two `mmap` results and the options are parameters. -/
def init (smallMap largeMap memoryLimit freeSpaceDivisor initialSize : Nat)
    (block : Nat → Block) (chunk : Nat → Chunk) : Result ((Nat → Block) × GlobalAllocator) := do
  check (initialSize ≥ blockSize * 2) "initial_size >= BLOCK_SIZE * 2"
  check (initialSize % blockSize == 0) "initial_size % BLOCK_SIZE == 0"
  let smallStart := mapAndAlign smallMap initialSize
  let (block, freeList) := pushBlocks block BlockList.clear
    ((List.range (initialSize / blockSize)).map fun i => smallStart + i * blockSize)
  let largeStart := mapAndAlign largeMap initialSize
  let largeChunkList :=
    (ChunkList.clear (store chunk largeStart (Chunk.init (sizeSub initialSize chunkHeaderSize)))).push
      largeStart
  let finalizers ← Hash.create 8
  .ok (block,
    { smallHeapSize := initialSize
      smallHeapStart := smallStart
      smallHeapStop := smallStart + initialSize
      freeList := freeList
      recyclableList := BlockList.clear
      largeHeapSize := initialSize
      largeHeapStart := largeStart
      largeHeapStop := largeStart + initialSize
      largeChunkList := largeChunkList
      finalizers := finalizers
      memoryLimit := memoryLimit
      freeSpaceDivisor := freeSpaceDivisor
      allocatedBytesSinceCollect := 0
      totalAllocatedBytes := 0 })

/-- `GlobalAllocator_growSmall`. The block count is an `int`. -/
def growSmall (g : Gc) : Result Gc :=
  let self := g.global
  let increment := roundToNextMultiple (sizeMul self.smallHeapSize growthRate / 100) blockSize
  if sizeAdd (sizeAdd self.smallHeapSize self.largeHeapSize) increment > self.memoryLimit then
    .error (.abort "GC: out of memory\n")
  else
    let pushed := pushBlocks g.block self.freeList
      ((List.range (intOf (increment / blockSize)).toNat).map
        fun i => self.smallHeapStop + i * blockSize)
    .ok { g with
      block := pushed.1
      global := { self with
        smallHeapStop := self.smallHeapStop + increment
        smallHeapSize := sizeAdd self.smallHeapSize increment
        freeList := pushed.2 } }

/-- `GlobalAllocator_growLarge`. A shift by 64 or more is undefined in C. -/
def growLarge (env : Env) (increment : Nat) (g : Gc) : Result Gc :=
  let self := g.global
  if env.ceilLog2 increment ≥ 64 then .error (.undefined "shift count >= width of type")
  else
    let size := roundToNextMultiple (2 ^ env.ceilLog2 increment) blockSize
    if sizeAdd (sizeAdd self.smallHeapSize self.largeHeapSize) size > self.memoryLimit then
      .error (.abort "GC: out of memory\n")
    else
      let chunk := self.largeHeapStop
      let list := self.largeChunkList
      let list :=
        { list with chunk := store list.chunk chunk (Chunk.init (sizeSub size chunkHeaderSize)) }
      .ok { g with
        global := { self with
          largeHeapStop := self.largeHeapStop + size
          largeHeapSize := sizeAdd self.largeHeapSize size
          largeChunkList := list.push chunk } }

/-- The list walk of `GlobalAllocator_tryAllocateLarge`; `NULL` when no free chunk fits. -/
def tryAllocateLargeFrom (size atomic : Nat) : Nat → Nat → Gc → Result (Nat × Gc)
  | 0, _, _ => .error .running
  | fuel + 1, chunk, g => do
    let self := g.global
    if chunk = null then .ok (null, g)
    else do
      check (chunk ≥ self.largeHeapStart) "(void *)chunk >= self->large_heap_start"
      check (chunk < self.largeHeapStop) "(void *)chunk < self->large_heap_stop"
      let header := self.largeChunkList.chunk chunk
      let objectSize := sizeAdd size sizeofObject
      if header.isAllocated = false ∧ objectSize ≤ header.object.size then do
        let list ← self.largeChunkList.split chunk objectSize
        let list := { list with chunk := store list.chunk chunk ((list.chunk chunk).allocate atomic) }
        .ok (Chunk.mutatorAddress chunk,
          { g with
            global := { self with largeChunkList := list }.incrementCounters size
            history := g.history.allocated (chunk + chunkHeaderSize) (list.chunk chunk).object.size })
      else tryAllocateLargeFrom size atomic fuel header.next g

def tryAllocateLarge (env : Env) (size atomic : Nat) (g : Gc) : Result (Nat × Gc) :=
  tryAllocateLargeFrom size atomic env.fuel g.global.largeChunkList.first g

/-- `GlobalAllocator_tryCollect`. A zero divisor is undefined in C. -/
def tryCollect (collect : Gc → Result Gc) (g : Gc) : Result (Bool × Gc) :=
  if g.collector.isCollecting then .ok (false, g)
  else if g.global.freeSpaceDivisor = 0 then .error (.undefined "division by zero")
  else if g.global.allocatedBytesSinceCollect < g.global.heapSize / g.global.freeSpaceDivisor then
    .ok (false, g)
  else do
    let g ← collect g
    .ok (true, g)

/-- `BlockList_shift(&self->recyclable_list)`. -/
def shiftRecyclable (g : Gc) : Nat × Gc :=
  let (item, list) := g.global.recyclableList.shift g.block
  (item, { g with global := { g.global with recyclableList := list } })

/-- `BlockList_shift(&self->free_list)`. -/
def shiftFree (g : Gc) : Nat × Gc :=
  let (item, list) := g.global.freeList.shift g.block
  (item, { g with global := { g.global with freeList := list } })

/-- Steps 5 to 7 of `nextBlock`, and step 3 of `nextFreeBlock`. -/
def takeFree (g : Gc) : Result (Nat × Gc) :=
  let (item, g) := shiftFree g
  if item ≠ null then .ok (item, g)
  else .error (.abort
    "GC: failed to allocate small object (can't shift block from free list)\n")

/-- `if (BlockList_isEmpty(&self->free_list)) GlobalAllocator_growSmall(self)`. -/
def growIfEmpty (g : Gc) : Result Gc :=
  if g.global.freeList.isEmpty then growSmall g else .ok g

/-- Steps 5 to 7 of `GC_GlobalAllocator_nextBlock`. -/
def growAndTakeFree (g : Gc) : Result (Nat × Gc) := do
  let g ← growIfEmpty g
  takeFree g

/-- `GC_GlobalAllocator_nextBlock`. -/
def nextBlock (collect : Gc → Result Gc) (g : Gc) : Result (Nat × Gc) :=
  -- 1. exhaust recyclable list
  let (item, g) := shiftRecyclable g
  if item ≠ null then .ok (item, g)
  else
    -- 2. exhaust free list
    let (item, g) := shiftFree g
    if item ≠ null then .ok (item, g)
    else do
      -- 3. no block? collect, when enough was allocated
      let (collected, g) ← tryCollect collect g
      if collected then
        -- 4. exhaust freshly recycled list
        let (item, g) := shiftRecyclable g
        if item ≠ null then .ok (item, g) else growAndTakeFree g
      else growAndTakeFree g

/-- `GC_GlobalAllocator_nextFreeBlock`. -/
def nextFreeBlock (collect : Gc → Result Gc) (g : Gc) : Result (Nat × Gc) :=
  let (item, g) := shiftFree g
  if item ≠ null then .ok (item, g)
  else do
    let (collected, g) ← tryCollect collect g
    if collected then growAndTakeFree g
    else do
      let g ← growSmall g
      takeFree g

/-- Steps 3 to 5 of `GC_GlobalAllocator_allocateLarge`. -/
def growAndAllocateLarge (env : Env) (rsize atomic : Nat) (g : Gc) : Result (Nat × Gc) := do
  let g ← growLarge env (sizeAdd rsize sizeofChunk) g
  let (mutator, g) ← tryAllocateLarge env rsize atomic g
  if mutator ≠ null then .ok (mutator, g)
  else .error (.abort
    "GC: failed to allocate large object size=%zu actual=%zu +metadata=%zu\n")

/-- `GC_GlobalAllocator_allocateLarge`. -/
def allocateLarge (env : Env) (collect : Gc → Result Gc) (size atomic : Nat) (g : Gc) :
    Result (Nat × Gc) := do
  let rsize := roundToNextMultiple size wordSize
  let (mutator, g) ← tryAllocateLarge env rsize atomic g
  if mutator ≠ null then .ok (mutator, g)
  else do
    let (collected, g) ← tryCollect collect g
    if collected then do
      let (mutator, g) ← tryAllocateLarge env rsize atomic g
      if mutator ≠ null then .ok (mutator, g) else growAndAllocateLarge env rsize atomic g
    else growAndAllocateLarge env rsize atomic g

/-- `GlobalAllocator_registerFinalizer`. -/
def registerFinalizer (object callback : Nat) (g : Gc) : Result Gc := do
  let finalizers ← g.global.finalizers.insert object callback
  .ok { g with global := { g.global with finalizers := finalizers } }

/-- `GlobalAllocator_deleteFinalizer`. -/
def deleteFinalizer (object : Nat) (g : Gc) : Result (Nat × Gc) := do
  let (callback, finalizers) ← g.global.finalizers.delete object
  .ok (callback, { g with global := { g.global with finalizers := finalizers } })

/-- `if (finalizer != NULL) finalizer(...)`. -/
def callIfSet (call : Nat → Nat → Gc → Result Gc) (finalizer object : Nat) (g : Gc) : Result Gc :=
  if finalizer ≠ null then call finalizer object g else .ok g

/-- `chunk->allocated = 0`. -/
def freeLarge (chunk : Nat) (g : Gc) : Gc :=
  let list := g.global.largeChunkList
  { g with
    global := { g.global with
      largeChunkList :=
        { list with chunk := store list.chunk chunk { list.chunk chunk with allocated := 0 } } }
    history := g.history.freed (chunk + chunkHeaderSize) }

/-- `GC_GlobalAllocator_deallocateLarge`; `call` runs a finalizer on an object. -/
def deallocateLarge (call : Nat → Nat → Gc → Result Gc) (pointer : Nat) (g : Gc) :
    Result Gc := do
  let chunk := pointer - sizeofChunk
  let (finalizer, g) ← deleteFinalizer (chunk + chunkHeaderSize) g
  let g ← callIfSet call finalizer (chunk + chunkHeaderSize) g
  .ok (freeLarge chunk g)

end GlobalAllocator

/-- The local variables of the line loop of `GC_GlobalAllocator_recycleBlocks`, with the
memory it writes. -/
structure LineScan where
  memory : Memory
  lineHeaders : Nat → LineHeader
  firstFreeLineIndex : Int
  hole : Nat
  previousHole : Nat

namespace GlobalAllocator

/-- `Hole_init` at the line where a hole opens, and the link from the previous hole. -/
def openHole (block : Nat) (index : Nat) (s : LineScan) : LineScan :=
  let hole := Block.line block index
  let memory := (s.memory.store hole null).store (hole + 8) null
  { s with
    memory := if s.previousHole ≠ null then memory.store (s.previousHole + 8) hole else memory
    lineHeaders := store s.lineHeaders index LineHeader.clear
    firstFreeLineIndex :=
      if s.firstFreeLineIndex = invalidLineIndex then (index : Int) else s.firstFreeLineIndex
    hole := hole }

/-- The line loop: `fuel` bounds the iterations, of which there are at most `LINE_COUNT`. -/
def scanLines (block : Nat) : Nat → Nat → LineScan → LineScan
  | 0, _, s => s
  | fuel + 1, index, s =>
    if index < lineCount then
      if (s.lineHeaders index).isMarked then
        if s.hole ≠ null then
          scanLines block fuel (index + 1)
            { s with
              memory := s.memory.store s.hole (Block.line block index)
              previousHole := s.hole
              hole := null }
        else scanLines block fuel (index + 1) s
      else
        let s := { s with lineHeaders := store s.lineHeaders index LineHeader.clear }
        if s.hole = null ∧ index ≠ lineCount - 1 ∧
            (s.lineHeaders (index + 1)).isMarked = false then
          -- conservative marking: the first free line may hold the tail of a small object
          scanLines block fuel (index + 2) (openHole block (index + 1) s)
        else scanLines block fuel (index + 1) s
    else s

/-- The body of `GC_GlobalAllocator_recycleBlocks` for a marked block, without the pushes. -/
def recycleLines (memory : Memory) (header : Block) (block : Nat) : Memory × Block :=
  let s := scanLines block lineCount 0 ⟨memory, header.lineHeaders, invalidLineIndex, null, null⟩
  let memory :=
    if s.hole ≠ null ∧ s.memory.load s.hole = null then s.memory.store s.hole (Block.stop block)
    else s.memory
  let header := { header with lineHeaders := s.lineHeaders }
  if s.firstFreeLineIndex = invalidLineIndex then (memory, header.setUnavailable)
  else (memory, header.setRecyclable s.firstFreeLineIndex)

/-- One iteration of `GC_GlobalAllocator_recycleBlocks`. -/
def recycleBlock (g : Gc) (block : Nat) : Gc :=
  if (g.block block).isMarked = false then
    let (blocks, freeList) := g.global.freeList.push (store g.block block Block.init) block
    { g with block := blocks, global := { g.global with freeList := freeList } }
  else
    let (memory, header) := recycleLines g.memory (g.block block) block
    let g := { g with memory := memory, block := store g.block block header }
    if header.isRecyclable then
      let (blocks, recyclableList) := g.global.recyclableList.push g.block block
      { g with block := blocks, global := { g.global with recyclableList := recyclableList } }
    else g

/-- `GC_GlobalAllocator_recycleBlocks`. -/
def recycleBlocks (g : Gc) : Gc :=
  let g := { g with
    global := { g.global with freeList := BlockList.clear, recyclableList := BlockList.clear } }
  g.global.blocks.foldl recycleBlock g

end GlobalAllocator
end ImmixGc.Source
