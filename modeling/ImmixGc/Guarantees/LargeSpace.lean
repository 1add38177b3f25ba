import ImmixGc.Guarantees.ChunkTiling
import ImmixGc.Guarantees.Mapping
import ImmixGc.Source.Collector

/-!
# The large heap over whole runs

The chunk list of the global allocator tiles the large heap after any sequence of
allocations, deallocations and collections, as long as no request comes so close to 2^64 that
its header wraps and no sweep has to measure a last chunk of 2^31 bytes or more.
-/
namespace ImmixGc.Guarantees
open Source Foundation

structure LargeHeap (global : GlobalAllocator) (chunks : List Nat) : Prop where
  tiling : Tiling global.largeChunkList global.largeHeapStart global.largeHeapStop chunks
  stop : global.largeHeapStop = global.largeHeapStart + global.largeHeapSize

/-- The heap sizes never pass the limit, so no address of the large heap wraps. -/
structure Bounds (global : GlobalAllocator) : Prop where
  small : 2 * blockSize ≤ global.smallHeapSize
  total : global.smallHeapSize + global.largeHeapSize ≤ global.memoryLimit
  limit : global.memoryLimit < 2 ^ 63
  start : global.largeHeapStart + global.memoryLimit ≤ sizeModulus + blockSize

/-- Every object has room for its own header. -/
def HeaderRoom (list : ChunkList) (chunks : List Nat) : Prop :=
  ∀ chunk ∈ chunks, sizeofObject ≤ (list.chunk chunk).object.size

/-- The large heap of a reachable state: it is tiled by chunks that are word aligned and have room
for their headers. -/
structure LargeOk (global : GlobalAllocator) (chunks : List Nat) : Prop where
  heap : LargeHeap global chunks
  bounds : Bounds global
  words : ∀ chunk ∈ chunks, chunk % wordSize = 0
  stopWord : global.largeHeapStop % wordSize = 0
  room : HeaderRoom global.largeChunkList chunks

/-- No byte of a header in the heap belongs to another one, so each can be a record of its own. -/
theorem Tiling.headers_apart {list : ChunkList} {start stop : Nat} {chunks : List Nat}
    (tiling : Tiling list start stop chunks) (room : HeaderRoom list chunks) {c chunk : Nat}
    (inList : c ∈ chunks) (member : chunk ∈ chunks) (different : c ≠ chunk) :
    c + sizeofChunk ≤ chunk ∨ chunk + sizeofChunk ≤ c := by
  have first := room c inList
  have second := room chunk member
  have apart := tiling.apart inList member different
  simp only [chunkStop, chunkHeaderSize, sizeofChunk, sizeofObject] at *
  omega

theorem HeaderRoom.congr {list list' : ChunkList} {chunks : List Nat} (room : HeaderRoom list chunks)
    (sizes : ∀ c ∈ chunks, (list'.chunk c).object.size = (list.chunk c).object.size) :
    HeaderRoom list' chunks :=
  fun c member => (room c member).trans (sizes c member).ge

theorem HeaderRoom.store {list : ChunkList} {chunk : Nat} {header : Chunk} {chunks : List Nat}
    (room : HeaderRoom list chunks) (size : header.object.size = (list.chunk chunk).object.size) :
    HeaderRoom { list with chunk := Source.store list.chunk chunk header } chunks := by
  refine room.congr fun c _ => ?_
  dsimp only
  rw [store_apply]
  split
  · next same => rw [same, size]
  · rfl

/-- Chunks that swallowed the ones behind them have room as before. -/
theorem HeaderRoom.grown {list list' : ChunkList} {start stop : Nat} {chunks fewer : List Nat}
    (room : HeaderRoom list chunks) (tiling : Tiling list start stop chunks)
    (tiling' : Tiling list' start stop fewer) (subset : ∀ c ∈ fewer, c ∈ chunks) :
    HeaderRoom list' fewer := by
  intro c member
  have grown := tiling.grown tiling' subset member
  simp only [chunkStop, Nat.add_le_add_iff_left] at grown
  exact (room c (subset c member)).trans grown

theorem LargeHeap.stop_lt {global : GlobalAllocator} {chunks : List Nat}
    (heap : LargeHeap global chunks) (bounds : Bounds global) :
    global.largeHeapStop < sizeModulus := by
  have := heap.stop
  have := bounds.small
  have := bounds.total
  have := bounds.start
  simp only [sizeModulus, blockSize] at *
  omega

/-- The successful path of `GC_GlobalAllocator_init`. -/
theorem init_ok {smallMap largeMap memoryLimit freeSpaceDivisor initialSize : Nat}
    {block block' : Nat → Block} {chunk : Nat → Chunk} {global : GlobalAllocator}
    (success : GlobalAllocator.init smallMap largeMap memoryLimit freeSpaceDivisor initialSize
      block chunk = .ok (block', global)) :
    2 * blockSize ≤ initialSize ∧ initialSize % blockSize = 0 ∧
    ∃ freeList finalizers,
      GlobalAllocator.pushBlocks block BlockList.clear
        ((List.range (initialSize / blockSize)).map fun i =>
          GlobalAllocator.mapAndAlign smallMap initialSize + i * blockSize) = (block', freeList) ∧
      Hash.create 8 = .ok finalizers ∧
      global =
        { smallHeapSize := initialSize
          smallHeapStart := GlobalAllocator.mapAndAlign smallMap initialSize
          smallHeapStop := GlobalAllocator.mapAndAlign smallMap initialSize + initialSize
          freeList := freeList
          recyclableList := BlockList.clear
          largeHeapSize := initialSize
          largeHeapStart := GlobalAllocator.mapAndAlign largeMap initialSize
          largeHeapStop := GlobalAllocator.mapAndAlign largeMap initialSize + initialSize
          largeChunkList := (ChunkList.clear (store chunk
            (GlobalAllocator.mapAndAlign largeMap initialSize)
            (Chunk.init (sizeSub initialSize chunkHeaderSize)))).push
              (GlobalAllocator.mapAndAlign largeMap initialSize)
          finalizers := finalizers
          memoryLimit := memoryLimit
          freeSpaceDivisor := freeSpaceDivisor
          allocatedBytesSinceCollect := 0
          totalAllocatedBytes := 0 } := by
  unfold GlobalAllocator.init at success
  obtain ⟨_, enough, success⟩ := bind_eq_ok.mp success
  obtain ⟨_, multiple, success⟩ := bind_eq_ok.mp success
  obtain ⟨finalizers, created, success⟩ := bind_eq_ok.mp success
  have enough := check_eq_ok.mp enough
  have multiple := check_eq_ok.mp multiple
  simp only [Except.ok.injEq, Prod.mk.injEq] at success
  refine ⟨by simpa [Nat.mul_comm] using enough, by simpa using multiple, _, finalizers, ?_, created,
    success.2.symm⟩
  rw [← success.1]

theorem init_largeOk {smallMap largeMap memoryLimit freeSpaceDivisor initialSize : Nat}
    {block block' : Nat → Block} {chunk : Nat → Chunk} {global : GlobalAllocator}
    (mapped : Mapped smallMap largeMap memoryLimit initialSize)
    (success : GlobalAllocator.init smallMap largeMap memoryLimit freeSpaceDivisor initialSize
      block chunk = .ok (block', global)) :
    LargeOk global [global.largeHeapStart] := by
  obtain ⟨enough, multiple, _, _, -, -, rfl⟩ := init_ok success
  have limit := mapped.limit_lt
  have within := mapped.within
  obtain ⟨positive, range⟩ := mapped.large
  obtain ⟨aligned, low, high⟩ := mapAndAlign_spec largeMap multiple
    (by simp only [blockSize] at *; omega) (by simp only [sizeModulus] at *; omega)
  generalize GlobalAllocator.mapAndAlign largeMap initialSize = start at *
  have size : sizeSub initialSize chunkHeaderSize = initialSize - chunkHeaderSize :=
    sizeSub_eq (by simp only [chunkHeaderSize, blockSize] at *; omega)
      (by simp only [sizeModulus] at *; omega)
  refine ⟨⟨⟨?_, ?_, ?_, ?_, ?_, ?_⟩, rfl⟩,
    ⟨enough, by simpa [Nat.two_mul] using within, limit, ?_⟩, ?_, ?_, ?_⟩
  · simp [ChunkList.push, ChunkList.setNext, ChunkList.isEmpty, ChunkList.clear]
  · simp only [Links.cons_iff, Links.nil_iff, true_and, chunkStop, ChunkList.push,
      ChunkList.setNext, ChunkList.isEmpty, ChunkList.clear, beq_self_eq_true, if_true,
      store_same, Chunk.init, size]
    simp only [chunkHeaderSize, blockSize] at *
    omega
  · simp [ChunkList.push]
  · simp [ChunkList.push, ChunkList.setNext, ChunkList.isEmpty, ChunkList.clear]
  · show 0 < start
    omega
  · show start + initialSize ≤ sizeModulus
    simp only [sizeModulus, blockSize] at *
    omega
  · show start + memoryLimit ≤ sizeModulus + blockSize
    omega
  · intro chunk member
    rw [List.mem_singleton.mp member]
    show start % wordSize = 0
    simp only [blockSize, wordSize] at *
    omega
  · show (start + initialSize) % wordSize = 0
    simp only [blockSize, wordSize] at *
    omega
  · intro chunk' member
    rw [List.mem_singleton.mp member]
    simp only [ChunkList.push, ChunkList.setNext, ChunkList.isEmpty, ChunkList.clear,
      beq_self_eq_true, if_true, store_same, Chunk.init, size]
    simp only [sizeofObject, chunkHeaderSize, blockSize] at *
    omega

/-! ## Growing -/

theorem setNext_chunk (list : ChunkList) (chunk next c : Nat) :
    ∃ link, (list.setNext chunk next).chunk c = { list.chunk c with next := link } := by
  rw [ChunkList.setNext]
  dsimp only
  rw [store_apply]
  split
  · next same =>
    rw [same]
    exact ⟨next, rfl⟩
  · exact ⟨(list.chunk c).next, rfl⟩

/-- Pushing a chunk changes links only. -/
theorem push_chunk (list : ChunkList) (chunk c : Nat) :
    ∃ link, (list.push chunk).chunk c = { list.chunk c with next := link } := by
  rw [ChunkList.push]
  dsimp only
  split
  · exact setNext_chunk list chunk null c
  · obtain ⟨link, outer⟩ := setNext_chunk (list.setNext chunk null) list.last chunk c
    obtain ⟨inside, inner⟩ := setNext_chunk list chunk null c
    rw [inner] at outer
    exact ⟨link, outer⟩

/-- The bytes `GlobalAllocator_growLarge` adds. -/
def largeIncrement (env : Env) (increment : Nat) : Nat :=
  (2 ^ env.ceilLog2 increment + (blockSize - 1)) / blockSize * blockSize

/-- The large heap with one free chunk of `size` bytes more. -/
def grownLarge (g : Gc) (size : Nat) : Gc :=
  { g with
    global := { g.global with
      largeHeapStop := g.global.largeHeapStop + size
      largeHeapSize := g.global.largeHeapSize + size
      largeChunkList := { g.global.largeChunkList with
        chunk := store g.global.largeChunkList.chunk g.global.largeHeapStop
          (Chunk.init (sizeSub size chunkHeaderSize)) }.push g.global.largeHeapStop } }

theorem grownLarge_new (g : Gc) (size : Nat) :
    ((grownLarge g size).global.largeChunkList.chunk g.global.largeHeapStop).isAllocated = false ∧
    ((grownLarge g size).global.largeChunkList.chunk g.global.largeHeapStop).object.size =
      sizeSub size chunkHeaderSize := by
  obtain ⟨link, pushed⟩ := push_chunk { g.global.largeChunkList with
    chunk := store g.global.largeChunkList.chunk g.global.largeHeapStop
      (Chunk.init (sizeSub size chunkHeaderSize)) } g.global.largeHeapStop g.global.largeHeapStop
  dsimp only at pushed
  rw [store_same] at pushed
  exact ⟨(congrArg Chunk.isAllocated pushed :), (congrArg (fun header => header.object.size) pushed :)⟩

/-- `growLarge` leaves the other chunks as they are, but for the link of the last one. -/
theorem grownLarge_chunk (g : Gc) (size : Nat) {c : Nat} (other : c ≠ g.global.largeHeapStop) :
    ∃ link, (grownLarge g size).global.largeChunkList.chunk c =
      { g.global.largeChunkList.chunk c with next := link } := by
  obtain ⟨link, pushed⟩ := push_chunk { g.global.largeChunkList with
    chunk := store g.global.largeChunkList.chunk g.global.largeHeapStop
      (Chunk.init (sizeSub size chunkHeaderSize)) } g.global.largeHeapStop c
  dsimp only at pushed
  rw [store_other _ _ _ _ other] at pushed
  exact ⟨link, pushed⟩

theorem largeIncrement_spec {env : Env} {increment : Nat} (shift : env.ceilLog2 increment < 64) :
    2 ^ env.ceilLog2 increment ≤ largeIncrement env increment ∧
      blockSize ≤ largeIncrement env increment ∧ largeIncrement env increment ≤ 2 ^ 63 ∧
      largeIncrement env increment % blockSize = 0 := by
  have power : 2 ^ env.ceilLog2 increment ≤ 2 ^ 63 := Nat.pow_le_pow_right (by decide) (by omega)
  have one : 0 < 2 ^ env.ceilLog2 increment := Nat.two_pow_pos _
  rw [largeIncrement]
  generalize 2 ^ env.ceilLog2 increment = requested at *
  simp only [blockSize]
  omega

/-- `GlobalAllocator_growLarge` aborts at the limit or adds one free chunk. -/
theorem growLarge_eq {env : Env} {increment : Nat} {g : Gc} (bounds : Bounds g.global)
    (shift : env.ceilLog2 increment < 64) :
    GlobalAllocator.growLarge env increment g =
      if g.global.smallHeapSize + g.global.largeHeapSize + largeIncrement env increment >
          g.global.memoryLimit then .error (.abort "GC: out of memory\n")
      else .ok (grownLarge g (largeIncrement env increment)) := by
  obtain ⟨-, -, size, -⟩ := largeIncrement_spec shift
  have power : 2 ^ env.ceilLog2 increment ≤ 2 ^ 63 := Nat.pow_le_pow_right (by decide) (by omega)
  have rounded : roundToNextMultiple (2 ^ env.ceilLog2 increment) blockSize =
      largeIncrement env increment :=
    roundToNextMultiple_eq _ _ (by decide) (by simp only [sizeModulus, blockSize] at *; omega)
  obtain ⟨small, total, limit, -⟩ := bounds
  have sum : sizeAdd (sizeAdd g.global.smallHeapSize g.global.largeHeapSize)
      (largeIncrement env increment) =
      g.global.smallHeapSize + g.global.largeHeapSize + largeIncrement env increment := by
    simp only [sizeAdd, sizeModulus] at *
    omega
  rw [GlobalAllocator.growLarge]
  dsimp only
  rw [if_neg (by omega), rounded, sum]
  split
  · rfl
  · have newSize : sizeAdd g.global.largeHeapSize (largeIncrement env increment) =
        g.global.largeHeapSize + largeIncrement env increment :=
      sizeAdd_eq (by simp only [sizeModulus] at *; omega)
    rw [newSize]
    rfl

/-- What `GlobalAllocator_growLarge` does when it does not abort. -/
theorem growLarge_ok {env : Env} {increment : Nat} {g g' : Gc} (bounds : Bounds g.global)
    (success : GlobalAllocator.growLarge env increment g = .ok g') :
    ∃ size, blockSize ≤ size ∧ size % blockSize = 0 ∧
      g.global.smallHeapSize + g.global.largeHeapSize + size ≤ g.global.memoryLimit ∧
      g' = grownLarge g size := by
  by_cases shift : env.ceilLog2 increment < 64
  · obtain ⟨-, low, -, multiple⟩ := largeIncrement_spec shift
    rw [growLarge_eq bounds shift] at success
    split at success
    · cases success
    · exact ⟨largeIncrement env increment, low, multiple, by omega, (Except.ok.inj success).symm⟩
  · rw [GlobalAllocator.growLarge] at success
    dsimp only at success
    rw [if_pos (by omega)] at success
    cases success

theorem HeaderRoom.grownLarge {g : Gc} {chunks : List Nat} {size : Nat}
    (room : HeaderRoom g.global.largeChunkList chunks) (fresh : g.global.largeHeapStop ∉ chunks)
    (low : blockSize ≤ size) (high : size < 2 ^ 63) :
    HeaderRoom (Guarantees.grownLarge g size).global.largeChunkList
      (chunks ++ [g.global.largeHeapStop]) := by
  intro chunk member
  rcases List.mem_append.mp member with old | new
  · obtain ⟨link, kept⟩ := grownLarge_chunk g size (ne_of_mem_of_not_mem old fresh)
    have same := (congrArg (fun header => header.object.size) kept :)
    exact (room chunk old).trans same.ge
  · rw [List.mem_singleton.mp new, (grownLarge_new g size).2,
      sizeSub_eq (by simp only [chunkHeaderSize, blockSize] at *; omega)
        (by simp only [sizeModulus]; omega)]
    simp only [chunkHeaderSize, blockSize, sizeofObject] at *
    omega

theorem LargeOk.growLarge {env : Env} {increment : Nat} {g g' : Gc} {chunks : List Nat}
    (ok : LargeOk g.global chunks) (success : GlobalAllocator.growLarge env increment g = .ok g') :
    LargeOk g'.global (chunks ++ [g.global.largeHeapStop]) := by
  obtain ⟨heap, bounds, words, stopWord, room⟩ := ok
  obtain ⟨size, low, multiple, total, rfl⟩ := growLarge_ok bounds success
  obtain ⟨small, -, limit, start⟩ := bounds
  have stop := heap.stop
  refine ⟨⟨heap.tiling.push ?_ ?_, ?_⟩, ⟨small, ?_, limit, start⟩, ?_, ?_,
    room.grownLarge heap.tiling.stop_not_mem low (by omega)⟩
  · simp only [chunkHeaderSize, blockSize] at *
    omega
  · simp only [sizeModulus, blockSize] at *
    omega
  · show g.global.largeHeapStop + size = g.global.largeHeapStart + (g.global.largeHeapSize + size)
    omega
  · show g.global.smallHeapSize + (g.global.largeHeapSize + size) ≤ g.global.memoryLimit
    omega
  · intro chunk member
    rcases List.mem_append.mp member with old | new
    · exact words chunk old
    · rw [List.mem_singleton.mp new]
      exact stopWord
  · show (g.global.largeHeapStop + size) % wordSize = 0
    simp only [blockSize, wordSize] at *
    omega

/-- The bytes `GlobalAllocator_growSmall` adds. -/
def smallIncrement (g : Gc) : Nat :=
  (sizeMul g.global.smallHeapSize growthRate / 100 + (blockSize - 1)) / blockSize * blockSize

/-- The blocks `GlobalAllocator_growSmall` pushes; it counts them with an `int`. -/
def countedBlocks (g : Gc) : List Nat :=
  (List.range (intOf (smallIncrement g / blockSize)).toNat).map
    fun i => g.global.smallHeapStop + i * blockSize

/-- The small heap with `increment` bytes more, and the blocks that were pushed. -/
def grownSmall (g : Gc) (increment : Nat) (pushed : List Nat) : Gc :=
  { g with
    block := (GlobalAllocator.pushBlocks g.block g.global.freeList pushed).1
    global := { g.global with
      smallHeapStop := g.global.smallHeapStop + increment
      smallHeapSize := g.global.smallHeapSize + increment
      freeList := (GlobalAllocator.pushBlocks g.block g.global.freeList pushed).2 } }

theorem smallIncrement_spec (g : Gc) : smallIncrement g ≤ 2 ^ 62 ∧ smallIncrement g % blockSize = 0 := by
  have below : sizeMul g.global.smallHeapSize growthRate / 100 < 2 ^ 62 - blockSize := by
    simp only [sizeMul, sizeModulus, blockSize]
    omega
  rw [smallIncrement]
  generalize sizeMul g.global.smallHeapSize growthRate / 100 = requested at *
  simp only [blockSize] at *
  omega

/-- `GlobalAllocator_growSmall` aborts at the limit or adds blocks. -/
theorem growSmall_eq {g : Gc} (bounds : Bounds g.global) :
    GlobalAllocator.growSmall g =
      if g.global.smallHeapSize + g.global.largeHeapSize + smallIncrement g > g.global.memoryLimit
      then .error (.abort "GC: out of memory\n")
      else .ok (grownSmall g (smallIncrement g) (countedBlocks g)) := by
  have below : sizeMul g.global.smallHeapSize growthRate / 100 < 2 ^ 62 := by
    simp only [sizeMul, sizeModulus]
    omega
  have rounded : roundToNextMultiple (sizeMul g.global.smallHeapSize growthRate / 100) blockSize =
      smallIncrement g :=
    roundToNextMultiple_eq _ _ (by decide) (by simp only [sizeModulus, blockSize] at *; omega)
  obtain ⟨small, total, limit, -⟩ := bounds
  have size := (smallIncrement_spec g).1
  have sum : sizeAdd (sizeAdd g.global.smallHeapSize g.global.largeHeapSize) (smallIncrement g) =
      g.global.smallHeapSize + g.global.largeHeapSize + smallIncrement g := by
    simp only [sizeAdd, sizeModulus] at *
    omega
  simp only [GlobalAllocator.growSmall, rounded, sum]
  split
  · rfl
  · have newSize : sizeAdd g.global.smallHeapSize (smallIncrement g) =
        g.global.smallHeapSize + smallIncrement g :=
      sizeAdd_eq (by simp only [sizeModulus] at *; omega)
    rw [newSize, grownSmall, countedBlocks]

theorem LargeOk.growSmall {g g' : Gc} {chunks : List Nat} (ok : LargeOk g.global chunks)
    (success : GlobalAllocator.growSmall g = .ok g') : LargeOk g'.global chunks := by
  obtain ⟨heap, bounds, words, stopWord, room⟩ := ok
  rw [growSmall_eq bounds] at success
  split at success
  · cases success
  rw [← Except.ok.inj success, grownSmall]
  obtain ⟨small, -, limit, start⟩ := bounds
  refine ⟨⟨heap.tiling, heap.stop⟩, ⟨?_, ?_, limit, start⟩, words, stopWord, room⟩
  · show 2 * blockSize ≤ g.global.smallHeapSize + smallIncrement g
    omega
  · show g.global.smallHeapSize + smallIncrement g + g.global.largeHeapSize ≤ g.global.memoryLimit
    omega

/-! ## Allocating -/

/-- What `GlobalAllocator_tryAllocateLarge` does when some free chunk fits. -/
structure AllocatedFrom (size atomic : Nat) (g : Gc) (chunk : Nat) (list : ChunkList) (g' : Gc) :
    Prop where
  wasFree : (g.global.largeChunkList.chunk chunk).isAllocated = false
  fits : sizeAdd size sizeofObject ≤ (g.global.largeChunkList.chunk chunk).object.size
  split : ChunkList.split g.global.largeChunkList chunk (sizeAdd size sizeofObject) = .ok list
  result : g' = { g with
    global := { g.global with
      largeChunkList := { list with
        chunk := store list.chunk chunk ((list.chunk chunk).allocate atomic) } }.incrementCounters size
    history := g.history.allocated (chunk + chunkHeaderSize)
      (((list.chunk chunk).allocate atomic).object.size) }

/-- A free chunk that is large enough. -/
def Usable (g : Gc) (size chunk : Nat) : Prop :=
  (g.global.largeChunkList.chunk chunk).isAllocated = false ∧
    sizeAdd size sizeofObject ≤ (g.global.largeChunkList.chunk chunk).object.size

/-- The list walk: no assertion fails, and it ends with `NULL` or a chunk of the list. -/
theorem tryAllocateLargeFrom_spec {g : Gc} {chunks : List Nat} (heap : LargeHeap g.global chunks)
    (size atomic fuel chunk : Nat) (front rest : List Nat) (split : chunks = front ++ rest)
    (linked : Links (fun chunk => (g.global.largeChunkList.chunk chunk).next) chunk rest null) :
    (GlobalAllocator.tryAllocateLargeFrom size atomic fuel chunk g = .error .running ∧
      fuel ≤ rest.length) ∨
    (GlobalAllocator.tryAllocateLargeFrom size atomic fuel chunk g = .ok (null, g) ∧
      ∀ c ∈ rest, ¬ Usable g size c) ∨
    ∃ c ∈ rest, ∃ list g',
      GlobalAllocator.tryAllocateLargeFrom size atomic fuel chunk g =
        .ok (Chunk.mutatorAddress c, g') ∧ AllocatedFrom size atomic g c list g' := by
  induction fuel generalizing chunk front rest with
  | zero => exact Or.inl ⟨rfl, Nat.zero_le _⟩
  | succ fuel ih =>
    rw [GlobalAllocator.tryAllocateLargeFrom]
    cases rest with
    | nil =>
      right; left
      simp [Links.nil_iff.mp linked]
    | cons head rest =>
      obtain ⟨rfl, linked⟩ := linked
      have member : chunk ∈ chunks := by simp [split]
      obtain ⟨low, high⟩ := heap.tiling.inside member
      have below : chunk < g.global.largeHeapStop := by
        have := Tiling.grows g.global.largeChunkList [chunk] chunk (by simp)
        omega
      have notNull : chunk ≠ null := by
        rintro rfl
        exact heap.tiling.null_not_mem member
      have startCheck : check (chunk ≥ g.global.largeHeapStart)
          "(void *)chunk >= self->large_heap_start" = .ok () :=
        check_eq_ok.mpr (by simpa using low)
      have stopCheck : check (chunk < g.global.largeHeapStop)
          "(void *)chunk < self->large_heap_stop" = .ok () :=
        check_eq_ok.mpr (by simpa using below)
      simp only [if_neg notNull, startCheck, stopCheck, ok_bind]
      by_cases usable : (g.global.largeChunkList.chunk chunk).isAllocated = false ∧
          sizeAdd size sizeofObject ≤ (g.global.largeChunkList.chunk chunk).object.size
      · right; right
        have cut := heap.tiling.split_eq member usable.2
        simp only [if_pos usable, cut, ok_bind]
        exact ⟨chunk, by simp, _, _, rfl, usable.1, usable.2, cut, by rw [store_same]⟩
      · rw [if_neg usable]
        rcases ih _ (front ++ [chunk]) rest (by simp [split]) linked with
          ⟨running, short⟩ | ⟨none, unusable⟩ | ⟨c, later, found⟩
        · exact Or.inl ⟨running, by simpa using short⟩
        · refine Or.inr (Or.inl ⟨none, fun c member => ?_⟩)
          rcases List.mem_cons.mp member with rfl | later
          · exact usable
          · exact unusable c later
        · exact Or.inr (Or.inr ⟨c, by simp [later], found⟩)

/-- A chunk of the list is handed out. -/
def allocateChunk (list : ChunkList) (chunk atomic : Nat) : ChunkList :=
  { list with chunk := store list.chunk chunk ((list.chunk chunk).allocate atomic) }

/-- `chunk` was handed out with room for `objectSize` bytes; it may have been cut in two. -/
structure Served (list list' : ChunkList) (start stop : Nat) (chunks chunks' : List Nat)
    (chunk objectSize atomic : Nat) : Prop where
  tiling : Tiling list' start stop chunks'
  kept : ∀ c ∈ chunks, c ∈ chunks'
  subset : ∀ c ∈ chunks', c ∈ chunks ∨ c = chunk + chunkHeaderSize + objectSize ∧
    (list'.chunk c).isAllocated = false ∧ sizeofObject ≤ (list'.chunk c).object.size
  others : ∀ c ∈ chunks, c ≠ chunk → list'.chunk c = list.chunk c
  allocated : (list'.chunk chunk).isAllocated = true ∧
    (list'.chunk chunk).object.atomic = atomic % 256
  enough : objectSize ≤ (list'.chunk chunk).object.size
  /-- What was cut off is a free chunk of its own. -/
  remainder : chunkStop list' chunk = chunkStop list chunk ∨
    ∃ rest ∈ chunks', rest = chunkStop list' chunk ∧ rest ∉ chunks ∧
      (list'.chunk rest).isAllocated = false ∧ chunkStop list' rest = chunkStop list chunk

theorem served_whole {list : ChunkList} {start stop chunk objectSize : Nat} {chunks : List Nat}
    (tiling : Tiling list start stop chunks) (fits : objectSize ≤ (list.chunk chunk).object.size)
    (atomic : Nat) :
    Served list (allocateChunk list chunk atomic) start stop chunks chunks chunk objectSize atomic := by
  have own : (allocateChunk list chunk atomic).chunk chunk = (list.chunk chunk).allocate atomic :=
    store_same _ _ _
  refine ⟨tiling.store rfl rfl, fun _ h => h, fun _ h => Or.inl h,
    fun c _ different => store_other _ _ _ _ different, ?_, ?_, Or.inl ?_⟩
  · rw [own]
    exact ⟨rfl, rfl⟩
  · rw [own]
    exact fits
  · rw [chunkStop, own]
    rfl

theorem served_cut {list : ChunkList} {start stop chunk objectSize : Nat} {chunks : List Nat}
    (tiling : Tiling list start stop chunks) (member : chunk ∈ chunks)
    (large : objectSize + chunkMinSize ≤ (list.chunk chunk).object.size) (atomic : Nat) :
    ∃ chunks', Served list (allocateChunk (Tiling.cut list chunk (chunk + chunkHeaderSize + objectSize)
      objectSize) chunk atomic) start stop chunks chunks' chunk objectSize atomic := by
  have apart : ∀ c ∈ chunks, c ≠ chunk + chunkHeaderSize + objectSize := by
    intro c hc same
    have := tiling.apart hc member (by simp only [chunkHeaderSize] at *; omega)
    have := Tiling.grows list [c] c (by simp)
    simp only [chunkStop, chunkHeaderSize, chunkMinSize] at *
    omega
  obtain ⟨pre, post, rfl⟩ := List.append_of_mem member
  have rest : chunkHeaderSize ≤ (list.chunk chunk).object.size - objectSize := by
    simp only [chunkMinSize, chunkHeaderSize] at *
    omega
  have tiling' := tiling.cut_tiling rest
  obtain ⟨size, rest, others⟩ := Tiling.cut_chunk list chunk objectSize
  generalize Tiling.cut list chunk (chunk + chunkHeaderSize + objectSize) objectSize = middle at *
  have own : (allocateChunk middle chunk atomic).chunk chunk =
      (middle.chunk chunk).allocate atomic := store_same _ _ _
  have behind : (allocateChunk middle chunk atomic).chunk (chunk + chunkHeaderSize + objectSize) =
      middle.chunk (chunk + chunkHeaderSize + objectSize) :=
    store_other _ _ _ _ (by simp only [chunkHeaderSize]; omega)
  have ends : chunkStop (allocateChunk middle chunk atomic) chunk =
      chunk + chunkHeaderSize + objectSize := by
    rw [chunkStop, own, Chunk.allocate, size]
  refine ⟨pre ++ chunk :: (chunk + chunkHeaderSize + objectSize) :: post,
    tiling'.store rfl rfl, ?_, ?_, ?_, ?_, ?_, Or.inr
      ⟨chunk + chunkHeaderSize + objectSize, by simp, ends.symm, fun h => apart _ h rfl, ?_, ?_⟩⟩
  · intro c hc
    simp only [List.mem_append, List.mem_cons] at hc ⊢
    tauto
  · intro c hc
    by_cases new : c = chunk + chunkHeaderSize + objectSize
    · rw [new, behind, rest]
      refine Or.inr ⟨rfl, rfl, ?_⟩
      simp only [Chunk.init, chunkMinSize, chunkHeaderSize, sizeofObject] at *
      omega
    · simp only [List.mem_append, List.mem_cons] at hc ⊢
      tauto
  · intro c hc different
    exact (store_other _ _ _ _ different).trans (others c different (apart c hc))
  · rw [own]
    exact ⟨rfl, rfl⟩
  · rw [own, Chunk.allocate, size]
  · rw [behind, rest]
    rfl
  · rw [chunkStop, behind, rest]
    simp only [Chunk.init, chunkStop, chunkHeaderSize, chunkMinSize] at *
    omega

theorem AllocatedFrom.served {size atomic chunk : Nat} {g g' : Gc} {list : ChunkList}
    {chunks : List Nat} (heap : LargeHeap g.global chunks) (member : chunk ∈ chunks)
    (allocated : AllocatedFrom size atomic g chunk list g') :
    ∃ chunks', Served g.global.largeChunkList g'.global.largeChunkList g.global.largeHeapStart
      g.global.largeHeapStop chunks chunks' chunk (sizeAdd size sizeofObject) atomic := by
  obtain ⟨-, fits, split, rfl⟩ := allocated
  rw [heap.tiling.split_eq member fits, Except.ok.injEq] at split
  by_cases small : (g.global.largeChunkList.chunk chunk).object.size - sizeAdd size sizeofObject <
      chunkMinSize
  · rw [if_pos small] at split
    subst split
    exact ⟨chunks, served_whole heap.tiling fits atomic⟩
  · rw [if_neg small] at split
    subst split
    exact served_cut heap.tiling member (by omega) atomic

theorem HeaderRoom.served {list list' : ChunkList} {start stop chunk objectSize atomic : Nat}
    {chunks chunks' : List Nat} (room : HeaderRoom list chunks) (enough : sizeofObject ≤ objectSize)
    (served : Served list list' start stop chunks chunks' chunk objectSize atomic) :
    HeaderRoom list' chunks' := by
  intro c hc
  rcases served.subset c hc with old | ⟨-, -, sized⟩
  · by_cases here : c = chunk
    · rw [here]
      exact enough.trans served.enough
    · rw [served.others c old here]
      exact room c old
  · exact sized

theorem LargeOk.served {size atomic chunk : Nat} {g g' : Gc} {list : ChunkList}
    {chunks chunks' : List Nat} (ok : LargeOk g.global chunks) (member : chunk ∈ chunks)
    (word : size % wordSize = 0) (enough : sizeofObject ≤ sizeAdd size sizeofObject)
    (allocated : AllocatedFrom size atomic g chunk list g')
    (served : Served g.global.largeChunkList g'.global.largeChunkList g.global.largeHeapStart
      g.global.largeHeapStop chunks chunks' chunk (sizeAdd size sizeofObject) atomic) :
    LargeOk g'.global chunks' := by
  obtain ⟨heap, bounds, words, stopWord, room⟩ := ok
  have room' := room.served enough served
  have tiling := served.tiling
  have subset := served.subset
  rw [allocated.result] at tiling room' ⊢
  refine ⟨⟨tiling, heap.stop⟩, ⟨bounds.small, bounds.total, bounds.limit, bounds.start⟩,
    fun c hc => ?_, stopWord, room'⟩
  rcases subset c hc with old | ⟨rfl, -⟩
  · exact words c old
  · have := words chunk member
    simp only [wordSize, chunkHeaderSize, sizeAdd, sizeofObject, sizeModulus] at *
    omega

theorem LargeOk.tryAllocateLarge {env : Env} {size atomic mutator : Nat} {g g' : Gc}
    {chunks : List Nat} (ok : LargeOk g.global chunks) (word : size % wordSize = 0)
    (enough : sizeofObject ≤ sizeAdd size sizeofObject)
    (success : GlobalAllocator.tryAllocateLarge env size atomic g = .ok (mutator, g')) :
    ∃ chunks', LargeOk g'.global chunks' := by
  unfold GlobalAllocator.tryAllocateLarge at success
  rcases tryAllocateLargeFrom_spec ok.heap size atomic env.fuel g.global.largeChunkList.first [] chunks
      rfl ok.heap.tiling.linked with ⟨running, -⟩ | ⟨none, -⟩ | ⟨c, member, list, g'', found, allocated⟩
  · rw [running] at success
    cases success
  · rw [none, Except.ok.injEq, Prod.mk.injEq] at success
    obtain ⟨-, rfl⟩ := success
    exact ⟨chunks, ok⟩
  · rw [found, Except.ok.injEq, Prod.mk.injEq] at success
    obtain ⟨-, rfl⟩ := success
    obtain ⟨chunks', served⟩ := allocated.served ok.heap member
    exact ⟨chunks', ok.served member word enough allocated served⟩

/-! ## Runs -/

/-- The mark phase as the chunk list sees it: mark bits for some chunks. -/
def remark (list : ChunkList) (marked : Nat → Bool) : ChunkList :=
  { list with chunk := fun chunk => (list.chunk chunk).setMarked (if marked chunk then 1 else 0) }

/-- Nothing of the large heap but perhaps its chunk list differs. -/
structure SameBounds (g g' : Gc) : Prop where
  start : g'.global.largeHeapStart = g.global.largeHeapStart
  stop : g'.global.largeHeapStop = g.global.largeHeapStop
  large : g'.global.largeHeapSize = g.global.largeHeapSize
  small : g'.global.smallHeapSize = g.global.smallHeapSize
  limit : g'.global.memoryLimit = g.global.memoryLimit

/-- Runs of the large heap. A call may run `GC_collect` or a finalizer inside; these are
runs themselves. A rounded request and its header stay below 2^64, and `admitted` restricts the
chunk lists that are swept. -/
inductive LargeRun (env : Env) (admitted : ChunkList → Prop) : Gc → Gc → Prop where
  | refl (g : Gc) : LargeRun env admitted g g
  | trans {g g' g'' : Gc} (first : LargeRun env admitted g g')
      (second : LargeRun env admitted g' g'') : LargeRun env admitted g g''
  | allocate {g g' : Gc} {collect : Gc → Result Gc} {size atomic mutator : Nat}
      (bound : size ≤ 2 ^ 64 - 24)
      (collections : ∀ before after, collect before = .ok after → LargeRun env admitted before after)
      (success : GlobalAllocator.allocateLarge env collect size atomic g = .ok (mutator, g')) :
      LargeRun env admitted g g'
  | deallocate {g g' : Gc} {call : Nat → Nat → Gc → Result Gc} {pointer : Nat}
      (finalizers : ∀ callback object before after, call callback object before = .ok after →
        LargeRun env admitted before after)
      (success : GlobalAllocator.deallocateLarge call pointer g = .ok g') : LargeRun env admitted g g'
  | collection {g g' : Gc} {marked : Nat → Bool}
      (onlyAllocated : ∀ chunk, marked chunk = true →
        (g.global.largeChunkList.chunk chunk).isAllocated = true)
      (mayBeSwept : admitted (remark g.global.largeChunkList marked))
      (success : ChunkList.sweep env.fuel (remark g.global.largeChunkList marked) =
        .ok g'.global.largeChunkList)
      (bounds : SameBounds g g') : LargeRun env admitted g g'
  | growSmall {g g' : Gc} (success : GlobalAllocator.growSmall g = .ok g') : LargeRun env admitted g g'
  | elsewhere {g g' : Gc} (bounds : SameBounds g g')
      (list : g'.global.largeChunkList = g.global.largeChunkList) : LargeRun env admitted g g'

/-- The walk of the source meets exactly the chunks of the tiling. -/
theorem chunksFrom_eq {list : ChunkList} (rest : List Nat) (fuel chunk : Nat)
    (linked : Links (fun chunk => (list.chunk chunk).next) chunk rest null) (away : null ∉ rest)
    (enough : rest.length ≤ fuel) : Collector.chunksFrom list fuel chunk = rest := by
  induction fuel generalizing chunk rest with
  | zero =>
    rw [List.eq_nil_of_length_eq_zero (Nat.le_zero.mp enough)]
    rfl
  | succ fuel ih =>
    rw [Collector.chunksFrom]
    cases rest with
    | nil => rw [if_pos (Links.nil_iff.mp linked)]
    | cons head rest =>
      obtain ⟨rfl, linked⟩ := linked
      rw [if_neg (by rintro rfl; simp at away),
        ih rest _ linked (by simp_all) (by simpa using enough)]

theorem tailFits_of_shortLimit {list : ChunkList} {start stop : Nat} {chunks : List Nat}
    (tiling : Tiling list start stop chunks) (fits : Collector.shortLimit list = false) :
    Tiling.TailFits list chunks := by
  rintro front previous last rfl hp hl
  have walk := chunksFrom_eq _ list.size list.first tiling.linked tiling.null_not_mem
    (Nat.le_of_eq tiling.size.symm)
  rw [Collector.shortLimit, walk] at fits
  simpa [hp, hl] using fits

/-- A sweep of a list whose end it can measure. -/
theorem Tiling.sweep_ok {list list' : ChunkList} {start stop fuel : Nat} {chunks : List Nat}
    (tiling : Tiling list start stop chunks) (fits : Collector.shortLimit list = false)
    (success : ChunkList.sweep fuel list = .ok list') :
    ∃ chunks', Tiling list' start stop chunks' ∧ Swept list list' chunks chunks' := by
  rcases tiling.sweep_spec (tailFits_of_shortLimit tiling fits) fuel with
    ⟨running, -⟩ | ⟨swept, chunks', ran, tiling', spec⟩
  · rw [running] at success
    cases success
  · rw [ran, Except.ok.injEq] at success
    subst success
    exact ⟨chunks', tiling', spec⟩

/-- Such a list ends in two unmarked chunks, a long one last. -/
theorem Tiling.long_tail {list : ChunkList} {start stop : Nat} {chunks : List Nat}
    (tiling : Tiling list start stop chunks) (long : Collector.shortLimit list = true) :
    ∃ previous last front, chunks = front ++ [previous, last] ∧
      (∀ c ∈ [previous, last], (list.chunk c).isMarked = false) ∧
      2 ^ 31 ≤ (list.chunk last).object.size + chunkHeaderSize := by
  have walk := chunksFrom_eq _ list.size list.first tiling.linked tiling.null_not_mem
    (Nat.le_of_eq tiling.size.symm)
  rw [Collector.shortLimit, walk] at long
  split at long
  · next last previous others reversed =>
    have whole := congrArg List.reverse reversed
    rw [List.reverse_reverse] at whole
    simp only [Bool.and_eq_true, Bool.not_eq_true', decide_eq_true_eq] at long
    refine ⟨previous, last, others.reverse, by simpa using whole, ?_, long.2⟩
    simp [long.1.1, long.1.2]
  · cases long

/-- From 2^31 on the conversion to `int` loses so much that a chunk merged up to `limit` does not
end where the heap does. -/
theorem Tiling.limit_misses {last bytes chunk size stop : Nat} (large : 2 ^ 31 ≤ bytes + 16)
    (small : bytes + 16 < 2 ^ 63) (ends : last + 16 + bytes = stop)
    (merged : size =
      sizeSub (sizeSub (((last : Int) + intOf (bytes + 16)) % (sizeModulus : Int)).toNat chunk) 16) :
    chunk + 16 + size ≠ stop := by
  have high : intOf (bytes + 16) < 2 ^ 31 := Int.bmod_lt (Nat.two_pow_pos 32)
  have low : -2 ^ 31 ≤ intOf (bytes + 16) := Int.le_bmod (Nat.two_pow_pos 32)
  generalize intOf (bytes + 16) = measured at *
  simp only [sizeSub, sizeModulus] at *
  omega

/-- A sweep of a list whose end it cannot measure leaves one that does not tile the heap. -/
theorem Tiling.sweep_breaks {list list' : ChunkList} {start stop fuel : Nat} {chunks chunks' : List Nat}
    (tiling : Tiling list start stop chunks) (heap : stop < start + 2 ^ 63)
    (long : Collector.shortLimit list = true) (success : ChunkList.sweep fuel list = .ok list') :
    ¬ Tiling list' start stop chunks' := by
  intro swept
  obtain ⟨previous, last, front, rfl, unmarked, large⟩ := tiling.long_tail long
  have merged := Tiling.sweepFrom_tail fuel list.first [] _ tiling tiling.linked ⟨front, rfl⟩ unmarked
    success
  have atLast : last = list.last := by simpa using tiling.last
  have ends := tiling.last_stop
  have low : start ≤ list.last := (tiling.inside (by simp [atLast])).1
  have notNull : list.last ≠ null := fun none => tiling.null_not_mem (by simp [atLast, none])
  rw [atLast] at large
  simp only [chunkStop, chunkHeaderSize] at ends large
  rw [ChunkList.limit, if_neg notNull, Chunk.size,
    sizeAdd_eq (by simp only [sizeModulus, chunkHeaderSize]; omega)] at merged
  exact Tiling.limit_misses large (by omega) ends merged swept.last_stop

theorem SameBounds.largeOk {g g' : Gc} {chunks chunks' : List Nat} (same : SameBounds g g')
    (ok : LargeOk g.global chunks)
    (tiling : Tiling g'.global.largeChunkList g.global.largeHeapStart g.global.largeHeapStop chunks')
    (subset : ∀ c ∈ chunks', c ∈ chunks) : LargeOk g'.global chunks' := by
  have room := ok.room.grown ok.heap.tiling tiling subset
  obtain ⟨heap, bounds, words, stopWord, -⟩ := ok
  refine ⟨⟨?_, ?_⟩, ⟨?_, ?_, ?_, ?_⟩, fun c hc => words c (subset c hc), ?_, room⟩
  · rw [same.start, same.stop]
    exact tiling
  · rw [same.start, same.stop, same.large]
    exact heap.stop
  · rw [same.small]
    exact bounds.small
  · rw [same.small, same.large, same.limit]
    exact bounds.total
  · rw [same.limit]
    exact bounds.limit
  · rw [same.start, same.limit]
    exact bounds.start
  · rw [same.stop]
    exact stopWord

theorem tryCollect_cases {collect : Gc → Result Gc} {g g' : Gc} {collected : Bool}
    (success : GlobalAllocator.tryCollect collect g = .ok (collected, g')) :
    (collected = false ∧ g' = g) ∨ (collected = true ∧ collect g = .ok g') := by
  unfold GlobalAllocator.tryCollect at success
  split at success
  · simp only [Except.ok.injEq, Prod.mk.injEq] at success
    exact Or.inl ⟨success.1.symm, success.2.symm⟩
  · split at success
    · cases success
    · split at success
      · simp only [Except.ok.injEq, Prod.mk.injEq] at success
        exact Or.inl ⟨success.1.symm, success.2.symm⟩
      · obtain ⟨after, collected, success⟩ := bind_eq_ok.mp success
        simp only [Except.ok.injEq, Prod.mk.injEq] at success
        obtain ⟨rfl, rfl⟩ := success
        exact Or.inr ⟨rfl, collected⟩

/-- `allocateLarge` returns what its last attempt returned, and what failed attempts, collections
and growth keep holds before that attempt. -/
theorem allocateLarge_last {env : Env} {collect : Gc → Result Gc} {size atomic mutator : Nat}
    {g g' : Gc} (invariant : Gc → Prop) (start : invariant g)
    (collecting : ∀ before after, invariant before → collect before = .ok after → invariant after)
    (failing : ∀ before after, invariant before →
      GlobalAllocator.tryAllocateLarge env (roundToNextMultiple size wordSize) atomic before =
        .ok (null, after) → invariant after)
    (growing : ∀ before after increment, invariant before →
      GlobalAllocator.growLarge env increment before = .ok after → invariant after)
    (success : GlobalAllocator.allocateLarge env collect size atomic g = .ok (mutator, g')) :
    ∃ before, invariant before ∧ mutator ≠ null ∧ GlobalAllocator.tryAllocateLarge env
      (roundToNextMultiple size wordSize) atomic before = .ok (mutator, g') := by
  have grows : ∀ middle, invariant middle →
      GlobalAllocator.growAndAllocateLarge env (roundToNextMultiple size wordSize) atomic middle =
        .ok (mutator, g') →
      ∃ before, invariant before ∧ mutator ≠ null ∧ GlobalAllocator.tryAllocateLarge env
        (roundToNextMultiple size wordSize) atomic before = .ok (mutator, g') := by
    intro middle holds success
    rw [GlobalAllocator.growAndAllocateLarge] at success
    obtain ⟨grown, growth, rest⟩ := bind_eq_ok.mp success
    obtain ⟨⟨found, after⟩, tried, last⟩ := bind_eq_ok.mp rest
    dsimp only at last
    split at last
    · next some =>
      simp only [Except.ok.injEq, Prod.mk.injEq] at last
      obtain ⟨rfl, rfl⟩ := last
      exact ⟨grown, growing _ _ _ holds growth, some, tried⟩
    · cases last
  rw [GlobalAllocator.allocateLarge] at success
  dsimp only at success
  obtain ⟨⟨first, g₁⟩, tried, rest⟩ := bind_eq_ok.mp success
  clear success
  dsimp only at rest
  split at rest
  · next some =>
    simp only [Except.ok.injEq, Prod.mk.injEq] at rest
    obtain ⟨rfl, rfl⟩ := rest
    exact ⟨g, start, some, tried⟩
  next none =>
  obtain rfl := Classical.not_not.mp none
  have holds₁ := failing _ _ start tried
  obtain ⟨⟨collected, g₂⟩, mayCollect, rest'⟩ := bind_eq_ok.mp rest
  dsimp only at rest'
  have holds₂ : invariant g₂ := by
    rcases tryCollect_cases mayCollect with ⟨-, rfl⟩ | ⟨-, ran⟩
    · exact holds₁
    · exact collecting _ _ holds₁ ran
  split at rest'
  · obtain ⟨⟨second, g₃⟩, retried, last⟩ := bind_eq_ok.mp rest'
    clear rest'
    dsimp only at last
    split at last
    · next some =>
      simp only [Except.ok.injEq, Prod.mk.injEq] at last
      obtain ⟨rfl, rfl⟩ := last
      exact ⟨g₂, holds₂, some, retried⟩
    · next none =>
      obtain rfl := Classical.not_not.mp none
      exact grows _ (failing _ _ holds₂ retried) last
  · exact grows _ holds₂ rest'

/-- A property that trying, collecting and growing keep is kept by `allocateLarge`. -/
theorem allocateLarge_induct {env : Env} {collect : Gc → Result Gc} {size atomic mutator : Nat}
    {g g' : Gc} (invariant : Gc → Prop) (start : invariant g)
    (collecting : ∀ before after, invariant before → collect before = .ok after → invariant after)
    (trying : ∀ before after mutator, invariant before →
      GlobalAllocator.tryAllocateLarge env (roundToNextMultiple size wordSize) atomic before =
        .ok (mutator, after) → invariant after)
    (growing : ∀ before after increment, invariant before →
      GlobalAllocator.growLarge env increment before = .ok after → invariant after)
    (success : GlobalAllocator.allocateLarge env collect size atomic g = .ok (mutator, g')) :
    invariant g' := by
  obtain ⟨before, holds, -, tried⟩ := allocateLarge_last invariant start collecting
    (fun _ _ => trying _ _ null) growing success
  exact trying _ _ _ holds tried

/-- Rounding to words gives a multiple of the word size, also when it wraps. -/
theorem roundToNextMultiple_word (size : Nat) : roundToNextMultiple size wordSize % wordSize = 0 := by
  simp only [roundToNextMultiple, sizeMul, sizeModulus, wordSize]
  omega

/-- Where the rounded size leaves room for a header, neither sum wraps. -/
theorem roundToNextMultiple_room {size : Nat} (bound : size ≤ 2 ^ 64 - 24) :
    size ≤ roundToNextMultiple size wordSize ∧ sizeAdd (roundToNextMultiple size wordSize) sizeofObject =
      roundToNextMultiple size wordSize + sizeofObject := by
  have rounded : roundToNextMultiple size wordSize = (size + (wordSize - 1)) / wordSize * wordSize :=
    roundToNextMultiple_eq _ _ (by decide) (by simp only [sizeModulus, wordSize]; omega)
  rw [rounded]
  simp only [wordSize, sizeAdd, sizeofObject, sizeModulus]
  omega

/-- Every step of a run keeps the tiling. -/
theorem largeRun_largeOk {env : Env} {g g' : Gc}
    (run : LargeRun env (fun list => Collector.shortLimit list = false) g g')
    (ok : ∃ chunks, LargeOk g.global chunks) : ∃ chunks, LargeOk g'.global chunks := by
  induction run with
  | refl => exact ok
  | trans _ _ ih ih' => exact ih' (ih ok)
  | allocate bound _ success ih =>
    refine allocateLarge_induct (fun g => ∃ chunks, LargeOk g.global chunks) ok
      (fun before after h ran => ih before after ran h) ?_ ?_ success
    · rintro before after mutator ⟨chunks, ok⟩ tried
      exact ok.tryAllocateLarge (roundToNextMultiple_word _)
        (by rw [(roundToNextMultiple_room bound).2]; exact Nat.le_add_left _ _) tried
    · rintro before after increment ⟨chunks, ok⟩ grown
      exact ⟨_, ok.growLarge grown⟩
  | @deallocate g g' call pointer _ success ih =>
    unfold GlobalAllocator.deallocateLarge at success
    obtain ⟨⟨finalizer, g₁⟩, deleted, success⟩ := bind_eq_ok.mp success
    obtain ⟨g₂, called, success⟩ := bind_eq_ok.mp success
    have ok₁ : ∃ chunks, LargeOk g₁.global chunks := by
      unfold GlobalAllocator.deleteFinalizer at deleted
      obtain ⟨_, -, deleted⟩ := bind_eq_ok.mp deleted
      simp only [Except.ok.injEq, Prod.mk.injEq] at deleted
      obtain ⟨-, rfl⟩ := deleted
      obtain ⟨chunks, heap, bounds, words, stopWord, room⟩ := ok
      exact ⟨chunks, ⟨heap.tiling, heap.stop⟩,
        ⟨bounds.small, bounds.total, bounds.limit, bounds.start⟩, words, stopWord, room⟩
    have ok₂ : ∃ chunks, LargeOk g₂.global chunks := by
      unfold GlobalAllocator.callIfSet at called
      split at called
      · exact ih _ _ _ _ called ok₁
      · rw [Except.ok.injEq] at called
        rw [← called]
        exact ok₁
    obtain ⟨chunks, heap, bounds, words, stopWord, room⟩ := ok₂
    simp only [Except.ok.injEq] at success
    subst success
    exact ⟨chunks, ⟨heap.tiling.store rfl rfl, heap.stop⟩,
      ⟨bounds.small, bounds.total, bounds.limit, bounds.start⟩, words, stopWord, room.store rfl⟩
  | @collection g g' marked _ mayBeSwept success same =>
    obtain ⟨chunks, ok⟩ := ok
    have marks : Tiling (remark g.global.largeChunkList marked) g.global.largeHeapStart
        g.global.largeHeapStop chunks :=
      ok.heap.tiling.congr (fun _ _ => rfl) (fun _ _ => rfl) rfl rfl rfl
    obtain ⟨chunks', tiling, swept⟩ := marks.sweep_ok mayBeSwept success
    exact ⟨chunks', same.largeOk ok tiling swept.subset⟩
  | growSmall success =>
    obtain ⟨chunks, ok⟩ := ok
    exact ⟨chunks, ok.growSmall success⟩
  | elsewhere same list =>
    obtain ⟨chunks, ok⟩ := ok
    exact ⟨chunks, same.largeOk ok (by rw [list]; exact ok.heap.tiling) fun _ h => h⟩

/-- In every run from `GC_GlobalAllocator_init` in which no header of a request wraps and no sweep
ends in two unmarked chunks of which the last has 2^31 bytes or more, the chunk list tiles the
large heap, no two headers overlap, and `ChunkList_validate` does not abort. -/
theorem large_chunks_tile {env : Env}
    {smallMap largeMap memoryLimit freeSpaceDivisor initialSize : Nat}
    {block block' : Nat → Block} {chunk : Nat → Chunk} {g g' : Gc}
    (mapped : Mapped smallMap largeMap memoryLimit initialSize)
    (start : GlobalAllocator.init smallMap largeMap memoryLimit freeSpaceDivisor initialSize
      block chunk = .ok (block', g.global))
    (run : LargeRun env (fun list => Collector.shortLimit list = false) g g') :
    ∃ chunks, Tiling g'.global.largeChunkList g'.global.largeHeapStart g'.global.largeHeapStop chunks ∧
      HeaderRoom g'.global.largeChunkList chunks ∧
      (∀ c ∈ chunks, ∀ chunk ∈ chunks, c ≠ chunk →
        c + sizeofChunk ≤ chunk ∨ chunk + sizeofChunk ≤ c) ∧
      ∀ fuel, chunks.length < fuel →
        ChunkList.validate g'.global.largeChunkList g'.global.largeHeapStop fuel = .ok () := by
  obtain ⟨chunks, ok⟩ := largeRun_largeOk run ⟨_, init_largeOk mapped start⟩
  refine ⟨chunks, ok.heap.tiling, ok.room, fun c inList chunk member different => ?_,
    fun fuel enough => ?_⟩
  · exact ok.heap.tiling.headers_apart ok.room inList member different
  · exact ok.heap.tiling.validate_spec _ (ok.heap.stop_lt ok.bounds) enough

/-! ## Two runs on concrete heaps -/

theorem ok_of_toBool {α : Type} {result : Result α} (returns : result.toBool = true) :
    ∃ value, result = .ok value := by
  cases result with
  | error stop => cases returns
  | ok value => exact ⟨value, rfl⟩

def sampleEnv : Env := ⟨100, fun n => (n - 1).log2 + 1, fun _ _ => []⟩

/-- A client with nothing but its allocator. -/
def bareGc (block : Nat → Block) (global : GlobalAllocator) : Gc :=
  { memory := ⟨fun _ => 0⟩
    block := block
    global := global
    localAllocator := fun _ => ⟨0, 0, 0, 0, 0, 0, 0⟩
    localAllocators := []
    current := null
    collector := ⟨[], false⟩
    rootScript := []
    history := History.empty }

def sampleInit : Result Gc := do
  let (block, global) ← GlobalAllocator.init 0x100000 (2 ^ 41) (2 ^ 40) 3 65536
    (fun _ => Block.init) (fun _ => ⟨null, 0, ⟨0, 0, 0⟩⟩)
  .ok (bareGc block global)

/-- Allocate, free and allocate again. -/
def allocateTwice (first second : Nat) (g : Gc) : Result Gc := do
  let (mutator, g) ← GlobalAllocator.allocateLarge sampleEnv noCollect first 0 g
  let g ← GlobalAllocator.deallocateLarge (fun _ _ g => .ok g) mutator g
  let (_, g) ← GlobalAllocator.allocateLarge sampleEnv noCollect second 0 g
  .ok g

/-- The chunk list of a collection that marks nothing, when it is swept. -/
def unmarkedList (g : Gc) : ChunkList := remark g.global.largeChunkList fun _ => false

def collectAll (g : Gc) : Result Gc := do
  let list ← ChunkList.sweep sampleEnv.fuel (unmarkedList g)
  .ok (Collector.withChunkList g list)

theorem sampleInit_global {g : Gc} (success : sampleInit = .ok g) :
    ∃ block, GlobalAllocator.init 0x100000 (2 ^ 41) (2 ^ 40) 3 65536 (fun _ => Block.init)
      (fun _ => ⟨null, 0, ⟨0, 0, 0⟩⟩) = .ok (block, g.global) := by
  obtain ⟨⟨block, global⟩, start, success⟩ := bind_eq_ok.mp success
  simp only [Except.ok.injEq] at success
  subst success
  exact ⟨block, start⟩

theorem allocateTwice_run {admitted : ChunkList → Prop} {first second : Nat} {g g' : Gc}
    (bounds : first ≤ 2 ^ 64 - 24 ∧ second ≤ 2 ^ 64 - 24)
    (success : allocateTwice first second g = .ok g') : LargeRun sampleEnv admitted g g' := by
  obtain ⟨⟨mutator, g₁⟩, allocated, success⟩ := bind_eq_ok.mp success
  obtain ⟨g₂, deallocated, success⟩ := bind_eq_ok.mp success
  obtain ⟨⟨_, g₃⟩, again, success⟩ := bind_eq_ok.mp success
  have quiet : ∀ before after, noCollect before = .ok after →
      LargeRun sampleEnv admitted before after := by
    intro before after h
    cases h
  have finalizers : ∀ (callback object : Nat) (before after : Gc), (.ok before : Result Gc) = .ok after →
      LargeRun sampleEnv admitted before after := by
    intro _ _ before after h
    rw [Except.ok.injEq] at h
    rw [h]
    exact .refl after
  simp only [Except.ok.injEq] at success
  subst success
  exact .trans (.allocate bounds.1 quiet allocated)
    (.trans (.deallocate finalizers deallocated) (.allocate bounds.2 quiet again))

theorem collectAll_run {admitted : ChunkList → Prop} {g g' : Gc}
    (mayBeSwept : admitted (unmarkedList g)) (success : collectAll g = .ok g') :
    LargeRun sampleEnv admitted g g' := by
  obtain ⟨list, swept, success⟩ := bind_eq_ok.mp success
  simp only [Except.ok.injEq] at success
  subst success
  exact .collection (fun _ h => by cases h) mayBeSwept swept ⟨rfl, rfl, rfl, rfl, rfl⟩

theorem sample_mapped : Mapped 0x100000 (2 ^ 41) (2 ^ 40) 65536 :=
  ⟨by decide, by decide, by decide, by decide⟩

/-- A run of small sizes, after which three chunks were merged into one. -/
theorem small_tail_tiles :
    ∃ g g', sampleInit = .ok g ∧
      LargeRun sampleEnv (fun list => Collector.shortLimit list = false) g g' ∧
      ∃ chunks, Tiling g'.global.largeChunkList g'.global.largeHeapStart g'.global.largeHeapStop chunks ∧
        HeaderRoom g'.global.largeChunkList chunks ∧
        (∀ c ∈ chunks, ∀ chunk ∈ chunks, c ≠ chunk →
          c + sizeofChunk ≤ chunk ∨ chunk + sizeofChunk ≤ c) ∧
        ∀ fuel, chunks.length < fuel →
          ChunkList.validate g'.global.largeChunkList g'.global.largeHeapStop fuel = .ok () := by
  have ends : (do
      let g ← sampleInit
      let middle ← allocateTwice 100000 9000 g
      let g' ← collectAll middle
      .ok (Collector.shortLimit (unmarkedList middle), g'.global.largeChunkList.size) : Result _) =
      .ok (false, 1) := by decide +kernel
  obtain ⟨g, start, ends⟩ := bind_eq_ok.mp ends
  obtain ⟨middle, allocated, ends⟩ := bind_eq_ok.mp ends
  obtain ⟨g', collected, ends⟩ := bind_eq_ok.mp ends
  simp only [Except.ok.injEq, Prod.mk.injEq] at ends
  have run : LargeRun sampleEnv (fun list => Collector.shortLimit list = false) g g' :=
    .trans (allocateTwice_run (by decide) allocated) (collectAll_run ends.1 collected)
  obtain ⟨block, init⟩ := sampleInit_global start
  exact ⟨g, g', start, run, large_chunks_tile sample_mapped init run⟩

/-- A run that frees 8 GiB, allocates half of it again and drops everything: the merged
chunk ends 4 GiB before the heap does. A request of 2^64 - 15 bytes leaves a second header 24
bytes behind the first one. -/
theorem long_tail_breaks_tiling :
    ∃ g g', Mapped 0x100000 (2 ^ 41) (2 ^ 40) 65536 ∧ sampleInit = .ok g ∧
      LargeRun sampleEnv (fun _ => True) g g' ∧
      ChunkList.validate g'.global.largeChunkList g'.global.largeHeapStop 10 =
        .error (.abort "ASSERTION FAILED: heap_stop %p == chunk+header+size %p\n") ∧
      (¬ ∃ chunks, Tiling g'.global.largeChunkList g'.global.largeHeapStart
        g'.global.largeHeapStop chunks) ∧
      (GlobalAllocator.allocateLarge sampleEnv noCollect (2 ^ 64 - 15) 1 g).map (fun r =>
        (r.2.global.largeChunkList.first, r.2.global.largeChunkList.last)) =
          .ok (2 ^ 41, 2 ^ 41 + 24) := by
  have ends : (do
      let g ← sampleInit
      let middle ← allocateTwice (2 ^ 33 - 32) (2 ^ 32 - 2 ^ 20) g
      let g' ← collectAll middle
      .ok (ChunkList.validate g'.global.largeChunkList g'.global.largeHeapStop 10,
        g'.global.largeHeapStop, g'.global.largeChunkList.size,
        (GlobalAllocator.allocateLarge sampleEnv noCollect (2 ^ 64 - 15) 1 g).map fun r =>
          (r.2.global.largeChunkList.first, r.2.global.largeChunkList.last)) : Result _) =
      .ok (.error (.abort "ASSERTION FAILED: heap_stop %p == chunk+header+size %p\n"),
        2 ^ 41 + 65536 + 2 ^ 33, 1, .ok (2 ^ 41, 2 ^ 41 + 24)) := by decide +kernel
  obtain ⟨g, start, ends⟩ := bind_eq_ok.mp ends
  obtain ⟨middle, allocated, ends⟩ := bind_eq_ok.mp ends
  obtain ⟨g', collected, ends⟩ := bind_eq_ok.mp ends
  simp only [Except.ok.injEq, Prod.mk.injEq] at ends
  obtain ⟨aborts, stop, size, wrapped⟩ := ends
  refine ⟨g, g', sample_mapped, start,
    .trans (allocateTwice_run (by decide) allocated) (collectAll_run trivial collected), aborts, ?_,
    wrapped⟩
  rintro ⟨chunks, tiling⟩
  have valid := tiling.validate_spec 10 (by rw [stop]; decide) (by rw [← tiling.size, size]; decide)
  rw [aborts] at valid
  cases valid

end ImmixGc.Guarantees
