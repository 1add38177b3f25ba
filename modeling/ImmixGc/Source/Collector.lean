import ImmixGc.Source.LocalAllocator

/-!
# The collector: collector.c, collector.h, stack.h, and the client's finalizers

`Collector_collect` in its phases: unmark, roots, mark, finalize, sweep.
-/
namespace ImmixGc.Source

/-- `GC_malloc_with_atomic`. -/
def mallocWithAtomic (env : Env) (collect : Gc → Result Gc) (size atomic : Nat) (g : Gc) :
    Result (Nat × Gc) :=
  if size ≤ largeObjectSize - sizeofObject then
    LocalAllocator.allocateSmall env collect g.current size atomic g
  else GlobalAllocator.allocateLarge env collect size atomic g

/-- While a collection runs, `tryCollect` returns before it would call `GC_collect`. -/
def noCollect (_ : Gc) : Result Gc := .error (.undefined "GC_collect during a collection")

namespace Collector

/-- The object walk of one line in `Collector_unmarkSmallObjects`. Every object takes at
least one byte, so the bound `LINE_SIZE` is never reached. -/
def unmarkLine (line : Nat) : Nat → Nat → Memory → Memory
  | 0, _, memory => memory
  | fuel + 1, offset, memory =>
    if offset < lineSize then
      if Object.size memory (line + offset) = 0 then memory
      else
        let memory := Object.unmark memory (line + offset)
        unmarkLine line fuel (offset + Object.size memory (line + offset)) memory
    else memory

/-- The line loop of `Collector_unmarkSmallObjects`, `count` lines from `index` on. -/
def unmarkLines (block : Nat) : Nat → Nat → Memory × Block → Memory × Block
  | 0, _, s => s
  | count + 1, index, (memory, header) =>
    let header := header.setLineHeader index (header.lineHeaders index).unmark
    let memory :=
      if (header.lineHeaders index).containsObject then
        unmarkLine (Block.line block index) lineSize (header.lineHeaders index).getOffset memory
      else memory
    unmarkLines block count (index + 1) (memory, header)

def unmarkBlock (g : Gc) (block : Nat) : Gc :=
  let (memory, header) := unmarkLines block lineCount 0 (g.memory, { g.block block with marked := 0 })
  { g with memory := memory, block := store g.block block header }

/-- `Collector_unmarkSmallObjects`. -/
def unmarkSmallObjects (g : Gc) : Gc := g.global.blocks.foldl unmarkBlock g

/-- `Collector_unmarkLargeObjects`, from `chunk` on. -/
def unmarkLargeFrom : Nat → Nat → ChunkList → Result ChunkList
  | 0, _, _ => .error .running
  | fuel + 1, chunk, list =>
    if chunk = null then .ok list
    else
      unmarkLargeFrom fuel (list.chunk chunk).next
        { list with chunk := store list.chunk chunk (list.chunk chunk).unmark }

def withChunkList (g : Gc) (list : ChunkList) : Gc :=
  { g with global := { g.global with largeChunkList := list } }

def unmarkLargeObjects (env : Env) (g : Gc) : Result Gc := do
  let list ← unmarkLargeFrom env.fuel g.global.largeChunkList.first g.global.largeChunkList
  .ok (withChunkList g list)

/-- `Stack_push(&self->roots, sp, bottom)`. -/
def pushRoots (g : Gc) (sp bottom : Nat) : Gc :=
  { g with collector := { g.collector with roots := (sp, bottom) :: g.collector.roots } }

/-- `Collector_scanObject`. -/
def scanObject (g : Gc) (object size atomic : Nat) : Gc :=
  if atomic = 0 then pushRoots g (Object.mutatorAddress object) (object + size) else g

/-- `Collector_markChunk`; `NULL` when no chunk was found. -/
def markChunk (g : Gc) (chunk : Nat) : Gc :=
  let list := g.global.largeChunkList
  let header := list.chunk chunk
  if chunk ≠ null ∧ header.isAllocated = true ∧ header.isMarked = false then
    scanObject (withChunkList g { list with chunk := store list.chunk chunk header.mark })
      (chunk + chunkHeaderSize) header.object.size header.object.atomic
  else g

/-- The walk of one line in `Collector_findAndMarkSmallObject`; each object takes at least
one byte, so at most `LINE_SIZE` of them start in a line. -/
def findInLine (memory : Memory) (pointer line : Nat) : Nat → Nat → Result (Option Nat)
  | 0, _ => .ok none
  | fuel + 1, offset =>
    if offset < lineSize then
      if Object.size memory (line + offset) = 0 then .ok none
      else if Object.size memory (line + offset) > largeObjectSize then
        .error (.abort
          "GC: invalid small object size %zu (maximum is %zu) line=%p offset=%d\n")
      else if Object.contains memory (line + offset) pointer then .ok (some (line + offset))
      else findInLine memory pointer line fuel (offset + Object.size memory (line + offset))
    else .ok none

/-- Search the lines from `line_index` down to 0 for one with an object. -/
def searchLines (lineHeaders : Nat → LineHeader) : Nat → Option Nat
  | 0 => if (lineHeaders 0).containsObject then some 0 else none
  | index + 1 =>
    if (lineHeaders (index + 1)).containsObject then some (index + 1)
    else searchLines lineHeaders index

/-- The line the search starts from: the line of the pointer, or the line before it when
the first object of that line lies after the pointer. -/
def searchStart (header : Block) (block pointer : Nat) : Option Nat :=
  match Block.lineIndex block pointer with
  | none => none
  | some index =>
    if (header.lineHeaders index).containsObject ∧
        pointer < Block.line block index + (header.lineHeaders index).getOffset then
      if index = 0 then none else some (index - 1)
    else some index

/-- The search of `Collector_findAndMarkSmallObject`: the line and the object found. -/
def findSmallObject (memory : Memory) (header : Block) (block pointer : Nat) :
    Result (Option (Nat × Nat)) :=
  match (searchStart header block pointer).bind (searchLines header.lineHeaders) with
  | none => .ok none
  | some index => do
    let object ← findInLine memory pointer (Block.line block index) lineSize
      (header.lineHeaders index).getOffset
    .ok (object.map fun o => (index, o))

/-- `do { mark(line_header); line += LINE_SIZE; line_header++; } while (line < limit)`. An
object of at most `LARGE_OBJECT_SIZE` bytes overlaps fewer than `LINE_COUNT` lines. -/
def markLines (limit : Nat) : Nat → Nat → Nat → Block → Block
  | 0, _, _, header => header
  | fuel + 1, index, line, header =>
    let header := header.setLineHeader index (header.lineHeaders index).mark
    if line + lineSize < limit then markLines limit fuel (index + 1) (line + lineSize) header
    else header

/-- The marking of `Collector_findAndMarkSmallObject` on the memory of one block. -/
def markSmallObject (memory : Memory) (header : Block) (block : Nat) (index : Nat)
    (object : Nat) : Memory × Block :=
  let header := { header with marked := 1 }
  let header :=
    if Object.size memory object ≤ lineSize then
      header.setLineHeader index (header.lineHeaders index).mark
    else markLines (object + Object.size memory object) lineCount index (Block.line block index) header
  (Object.mark memory object, header)

/-- `Collector_findAndMarkSmallObject`. -/
def findAndMarkSmallObject (pointer : Nat) (g : Gc) : Result Gc := do
  let block := Block.from pointer
  let found ← findSmallObject g.memory (g.block block) block pointer
  match found with
  | none => .ok g
  | some (index, object) =>
    if Object.isMarked g.memory object then .ok g
    else
      let (memory, header) := markSmallObject g.memory (g.block block) block index object
      .ok (scanObject { g with memory := memory, block := store g.block block header } object
        (Object.size g.memory object) (Object.atomic g.memory object))

/-- The body of the loops of `GC_Collector_mark`: one word of a region. -/
def markPointer (env : Env) (pointer : Nat) (g : Gc) : Result Gc :=
  if g.global.inSmallHeap pointer then findAndMarkSmallObject pointer g
  else if g.global.inLargeHeap pointer then do
    let chunk ← g.global.largeChunkList.find pointer env.fuel g.global.largeChunkList.first
    .ok (markChunk g chunk)
  else .ok g

/-- `while (sp < bottom)` of `GC_Collector_mark`, `count` words from `sp` on. -/
def scanWords (env : Env) : Nat → Nat → Gc → Result Gc
  | 0, _, g => .ok g
  | count + 1, sp, g => do
    let g ← markPointer env (g.memory.load sp) g
    scanWords env count (sp + wordSize) g

/-- One region of `GC_Collector_mark`. -/
def scanRegion (env : Env) (region : Region) (g : Gc) : Result Gc :=
  scanWords env ((region.2 - region.1 + (wordSize - 1)) / wordSize) region.1 g

/-- `GC_Collector_mark`: pop regions until the mark stack is empty. -/
def mark (env : Env) : Nat → Gc → Result Gc
  | 0, _ => .error .running
  | fuel + 1, g =>
    match g.collector.roots with
    | [] => .ok g
    | region :: rest => do
      let g ← scanRegion env region { g with collector := { g.collector with roots := rest } }
      mark env fuel g

/-- `GC_Collector_addRoots`. -/
def addRoots (region : Region) (g : Gc) : Result Gc := do
  check (region.1 ≤ region.2) "top <= bottom"
  .ok (pushRoots g region.1 region.2)

/-- The data sections and the collect callback: the client registers its root regions. -/
def callCollectCallback (g : Gc) : Result Gc :=
  match g.rootScript with
  | [] => .ok g
  | regions :: rest => regions.foldlM (fun g region => addRoots region g) { g with rootScript := rest }

/-- The client's finalizers: writes to its own memory, and calls of `GC_malloc` whose result
is stored. -/
def runAction (env : Env) (g : Gc) : Action → Result Gc
  | .store address value => g.clientStore address value
  | .malloc size atomic destination => do
    let (pointer, g) ← mallocWithAtomic env noCollect size atomic g
    g.clientStore destination pointer

/-- Call a finalizer on an object. -/
def callFinalizer (env : Env) (callback object : Nat) (g : Gc) : Result Gc :=
  (env.finalizer callback (Object.mutatorAddress object)).foldlM (runAction env)
    { g with history := g.history.call object callback }

/-- `GlobalAllocator_finalizeObjectCallback`. -/
def finalizeObjectCallback (env : Env) (object callback : Nat) (g : Gc) : Result (Bool × Gc) :=
  if g.isMarked object = false then do
    let g ← callFinalizer env callback object g
    .ok (true, g)
  else .ok (false, g)

/-- `GlobalAllocator_finalizeObjects`. -/
def finalizeObjects (env : Env) (g : Gc) : Result Gc := do
  let (finalizers, g) ← g.global.finalizers.deleteIf (finalizeObjectCallback env) g
  .ok { g with global := { g.global with finalizers := finalizers } }

/-- The objects a line walk visits. -/
def lineObjects (memory : Memory) (line : Nat) : Nat → Nat → List Nat
  | 0, _ => []
  | fuel + 1, offset =>
    if offset < lineSize then
      if Object.size memory (line + offset) = 0 then []
      else (line + offset) :: lineObjects memory line fuel (offset + Object.size memory (line + offset))
    else []

/-- A marked line's walk visits an object that overlaps two neighbouring unmarked lines. -/
def holeInObject (memory : Memory) (header : Block) (block : Nat) : Bool :=
  header.isMarked && (List.range lineCount).any fun i =>
    (header.lineHeaders i).isMarked && (header.lineHeaders i).containsObject &&
      (lineObjects memory (Block.line block i) lineSize (header.lineHeaders i).getOffset).any
        fun object => (List.range lineCount).any fun j =>
          decide (1 ≤ j) && !(header.lineHeaders (j - 1)).isMarked &&
            !(header.lineHeaders j).isMarked &&
            decide (object < Block.line block (j + 1)) &&
            decide (Block.line block j < object + Object.size memory object)

/-- The chunks the list walk visits. -/
def chunksFrom (list : ChunkList) : Nat → Nat → List Nat
  | 0, _ => []
  | fuel + 1, chunk =>
    if chunk = null then [] else chunk :: chunksFrom list fuel (list.chunk chunk).next

/-- The list ends in two unmarked chunks, and the last one has 2^31 bytes or more. -/
def shortLimit (list : ChunkList) : Bool :=
  match (chunksFrom list list.size list.first).reverse with
  | last :: previous :: _ =>
    !(list.chunk last).isMarked && !(list.chunk previous).isMarked &&
      decide (2 ^ 31 ≤ (list.chunk last).object.size + chunkHeaderSize)
  | _ => false

/-- What the history notes before a sweep. -/
def noteSweep (g : Gc) : Gc :=
  { g with
    history := { g.history.retained g.isMarked with
      holeInObject := g.history.holeInObject ||
        g.global.blocks.any fun b => holeInObject g.memory (g.block b) b
      shortLimit := g.history.shortLimit || shortLimit g.global.largeChunkList } }

/-- `Collector_sweep`. -/
def sweep (env : Env) (g : Gc) : Result Gc := do
  let g := GlobalAllocator.recycleBlocks (noteSweep g)
  let list ← g.global.largeChunkList.sweep env.fuel
  .ok (withChunkList g list)

/-- `GC_Collector_collect`. -/
def collect (env : Env) (g : Gc) : Result Gc := do
  let g := unmarkSmallObjects g
  let g ← unmarkLargeObjects env g
  let g ← callCollectCallback g
  let g ← mark env env.fuel g
  let g := { g with global := g.global.resetCounters }
  let g ← finalizeObjects env g
  sweep env g

end Collector
end ImmixGc.Source
