import Mathlib.Data.Nat.Log
import ImmixGc.Guarantees.CollectionSpace

/-!
# Growing the two heaps inside their mappings

Both heaps start at an aligned address of their mapping and grow under one limit on the sum
of their sizes. Growing aborts at the limit or keeps both heaps inside; what was added is
enough for the request that made a heap grow, as long as `growSmall` can count its blocks.
-/
namespace ImmixGc.Guarantees
open Source Foundation

/-- Both heaps start where `GC_mapAndAlign` put them and respect the limit together. -/
structure HeapsOk (smallMap largeMap initialSize : Nat) (g : Gc) (chunks : List Nat) : Prop where
  initial : 0 < initialSize ∧ initialSize % blockSize = 0 ∧ initialSize ≤ sizeModulus
  smallMapped : 0 < smallMap ∧ smallMap + g.global.memoryLimit ≤ sizeModulus
  largeMapped : 0 < largeMap ∧ largeMap + g.global.memoryLimit ≤ sizeModulus
  limit : g.global.memoryLimit < 2 ^ 57
  smallStart : g.global.smallHeapStart = GlobalAllocator.mapAndAlign smallMap initialSize
  largeStart : g.global.largeHeapStart = GlobalAllocator.mapAndAlign largeMap initialSize
  smallStop : g.global.smallHeapStop = g.global.smallHeapStart + g.global.smallHeapSize
  largeStop : g.global.largeHeapStop = g.global.largeHeapStart + g.global.largeHeapSize
  small : 2 * blockSize ≤ g.global.smallHeapSize ∧ g.global.smallHeapSize % blockSize = 0
  large : 2 * blockSize ≤ g.global.largeHeapSize ∧ g.global.largeHeapSize % blockSize = 0
  total : g.global.smallHeapSize + g.global.largeHeapSize ≤ g.global.memoryLimit
  tiling : Tiling g.global.largeChunkList g.global.largeHeapStart g.global.largeHeapStop chunks
  room : HeaderRoom g.global.largeChunkList chunks

/-- Neither heap passes the end of its mapping. -/
def InsideMappings (smallMap largeMap : Nat) (g : Gc) : Prop :=
  g.global.smallHeapStop ≤ smallMap + g.global.memoryLimit ∧
    g.global.largeHeapStop ≤ largeMap + g.global.memoryLimit

/-- The blocks between the old and the new end of the small heap. -/
def newBlocks (g g' : Gc) : List Nat :=
  (List.range ((g'.global.smallHeapStop - g.global.smallHeapStop) / blockSize)).map
    fun i => g.global.smallHeapStop + i * blockSize

/-- The free list holds these blocks of the heap. -/
def FreeBlocks (g : Gc) (items : List Nat) : Prop :=
  Listed g.block g.global.freeList items ∧ ∀ b ∈ items, b < g.global.smallHeapStop

/-- Each new block was pushed once behind the free blocks, with a fresh header. -/
structure PushesNewBlocks (g g' : Gc) (items : List Nat) : Prop where
  listed : Listed g'.block g'.global.freeList (items ++ newBlocks g g')
  fresh : ∀ b ∈ newBlocks g g', SameBlock (g'.block b) Block.init

/-- The blocks that the small heap grows by can be counted with an `int`. -/
def CountsBlocks (g : Gc) : Prop := smallIncrement g / blockSize < 2 ^ 31

instance (g : Gc) : Decidable (CountsBlocks g) := inferInstanceAs (Decidable (_ < _))

def outOfMemory : Stop := .abort "GC: out of memory\n"

def finalAbort : Stop :=
  .abort "GC: failed to allocate small object (can't shift block from free list)\n"

/-- `log2` and `ceil` of libm, when they are exact. -/
def ExactLog (env : Env) : Prop := ∀ n, 0 < n → env.ceilLog2 n = Nat.clog 2 n

/-- An `int` holds exactly the counts below 2^31. -/
theorem intOf_toNat_iff {n : Nat} : (intOf n).toNat = n ↔ n < 2 ^ 31 := by
  refine ⟨fun same => ?_, fun small => ?_⟩
  · have := Tiling.intOf_lt n
    omega
  · rw [Tiling.intOf_small small, Int.toNat_natCast]

theorem pushBlocks_first (items : List Nat) (block : Nat → Block) (list : BlockList)
    (some : ∀ item ∈ items, item ≠ null) (nonempty : list.first ≠ null ∨ items ≠ []) :
    (GlobalAllocator.pushBlocks block list items).2.first ≠ null := by
  induction items generalizing block list with
  | nil => exact nonempty.resolve_right fun h => h rfl
  | cons item items ih =>
    rw [GlobalAllocator.pushBlocks]
    dsimp only
    refine ih _ _ (fun i member => some i (by simp [member])) (Or.inl ?_)
    rw [BlockList.push]
    dsimp only
    split
    · exact some item (by simp)
    · next full => simpa [BlockList.isEmpty] using full

namespace HeapsOk
variable {smallMap largeMap initialSize : Nat} {g : Gc} {chunks : List Nat}

theorem starts (ok : HeapsOk smallMap largeMap initialSize g chunks) :
    smallMap ≤ g.global.smallHeapStart ∧ g.global.smallHeapStart ≤ smallMap + blockSize ∧
      largeMap ≤ g.global.largeHeapStart ∧ g.global.largeHeapStart ≤ largeMap + blockSize := by
  obtain ⟨positive, multiple, fits⟩ := ok.initial
  have small := mapAndAlign_spec smallMap multiple positive fits
  have large := mapAndAlign_spec largeMap multiple positive fits
  rw [ok.smallStart, ok.largeStart]
  exact ⟨small.2.1, small.2.2, large.2.1, large.2.2⟩

/-- The other heap has at least the block that aligning the start may cost. -/
theorem inside (ok : HeapsOk smallMap largeMap initialSize g chunks) :
    InsideMappings smallMap largeMap g := by
  have starts := ok.starts
  have small := ok.small.1
  have large := ok.large.1
  have total := ok.total
  rw [InsideMappings, ok.smallStop, ok.largeStop]
  omega

theorem largeHeap (ok : HeapsOk smallMap largeMap initialSize g chunks) :
    LargeHeap g.global chunks := ⟨ok.tiling, ok.largeStop⟩

theorem bounds (ok : HeapsOk smallMap largeMap initialSize g chunks) : Bounds g.global := by
  have starts := ok.starts
  have mapped := ok.largeMapped
  have limit := ok.limit
  exact ⟨ok.small.1, ok.total, by omega, by omega⟩

/-- In the address space that the limit leaves, the growth rate does not wrap. -/
theorem smallIncrement_eq (ok : HeapsOk smallMap largeMap initialSize g chunks) :
    smallIncrement g =
      (g.global.smallHeapSize * 30 / 100 + (blockSize - 1)) / blockSize * blockSize := by
  have total := ok.total
  have limit := ok.limit
  have exact' : sizeMul g.global.smallHeapSize growthRate = g.global.smallHeapSize * 30 :=
    Nat.mod_eq_of_lt (by simp only [growthRate, sizeModulus]; omega)
  rw [smallIncrement, exact']

theorem smallIncrement_pos (ok : HeapsOk smallMap largeMap initialSize g chunks) :
    blockSize ≤ smallIncrement g := by
  have small := ok.small.1
  rw [ok.smallIncrement_eq]
  simp only [blockSize] at *
  omega

/-- `growSmall` keeps both heaps in place when it does not abort. -/
theorem grownSmall (ok : HeapsOk smallMap largeMap initialSize g chunks)
    (room : g.global.smallHeapSize + g.global.largeHeapSize + smallIncrement g ≤
      g.global.memoryLimit) :
    HeapsOk smallMap largeMap initialSize
      (Guarantees.grownSmall g (smallIncrement g) (countedBlocks g)) chunks := by
  have multiple := (smallIncrement_spec g).2
  have small := ok.small
  have stop := ok.smallStop
  rw [Guarantees.grownSmall]
  refine ⟨ok.initial, ok.smallMapped, ok.largeMapped, ok.limit, ok.smallStart, ok.largeStart, ?_,
    ok.largeStop, ⟨?_, ?_⟩, ok.large, ?_, ok.tiling, ok.room⟩
  · dsimp only
    omega
  · dsimp only
    omega
  · dsimp only
    simp only [blockSize] at *
    omega
  · dsimp only
    omega

theorem newBlocks_grownSmall (g : Gc) (increment : Nat) (pushed : List Nat) :
    newBlocks g (Guarantees.grownSmall g increment pushed) =
      (List.range (increment / blockSize)).map fun i => g.global.smallHeapStop + i * blockSize := by
  rw [newBlocks, Guarantees.grownSmall, Nat.add_sub_cancel_left]

theorem smallStop_pos (ok : HeapsOk smallMap largeMap initialSize g chunks) :
    0 < g.global.smallHeapStop := by
  have low := ok.starts.1
  have mapped := ok.smallMapped.1
  have stop := ok.smallStop
  omega

/-- Pushing the first `count` of the new blocks pushes all of them only if there are `count`. -/
theorem pushesNewBlocks_grownSmall (positive : 0 < g.global.smallHeapStop) {items : List Nat}
    (free : FreeBlocks g items) (increment count : Nat) :
    PushesNewBlocks g (Guarantees.grownSmall g increment
      ((List.range count).map fun i => g.global.smallHeapStop + i * blockSize)) items ↔
        count = increment / blockSize := by
  obtain ⟨listed, below⟩ := free
  have behind : ∀ b ∈ (List.range count).map fun i => g.global.smallHeapStop + i * blockSize,
      g.global.smallHeapStop ≤ b := by
    intro b member
    obtain ⟨i, -, rfl⟩ := List.mem_map.mp member
    exact Nat.le_add_right _ _
  have distinct : ((List.range count).map
      fun i => g.global.smallHeapStop + i * blockSize).Nodup := by
    refine List.nodup_range.map fun i j same => ?_
    simp only [blockSize] at same
    omega
  obtain ⟨pushed, -⟩ := pushBlocks_listed _ listed
    (fun b member old => absurd (behind b member) (Nat.not_le.mpr (below b old))) distinct
    (fun member => absurd (behind null member) (Nat.not_le.mpr positive))
  constructor
  · intro pushes
    have same := Links.unique pushes.listed.absent pushed.absent pushes.listed.links pushed.links
    rw [newBlocks_grownSmall, List.append_cancel_left_eq] at same
    simpa using (congrArg List.length same).symm
  · intro counted
    rw [counted] at pushed ⊢
    refine ⟨?_, fun b member => ?_⟩
    · rw [newBlocks_grownSmall]
      exact pushed
    · rw [newBlocks_grownSmall] at member
      refine (pushBlocks_same _ _ _ b).trans ?_
      rw [if_pos member]
      exact SameBlock.refl _

/-- The blocks are pushed exactly when an `int` can count them. -/
theorem pushesNewBlocks_iff (ok : HeapsOk smallMap largeMap initialSize g chunks) {items : List Nat}
    (free : FreeBlocks g items) :
    PushesNewBlocks g (Guarantees.grownSmall g (smallIncrement g) (countedBlocks g)) items ↔
      CountsBlocks g := by
  rw [countedBlocks, pushesNewBlocks_grownSmall ok.smallStop_pos free, intOf_toNat_iff, CountsBlocks]

/-- `growLarge` keeps both heaps in place when it does not abort. -/
theorem grownLarge (ok : HeapsOk smallMap largeMap initialSize g chunks) {size : Nat}
    (low : blockSize ≤ size) (multiple : size % blockSize = 0)
    (room : g.global.smallHeapSize + g.global.largeHeapSize + size ≤ g.global.memoryLimit) :
    HeapsOk smallMap largeMap initialSize (Guarantees.grownLarge g size)
      (chunks ++ [g.global.largeHeapStop]) := by
  have large := ok.large
  have stop := ok.largeStop
  have starts := ok.starts
  have mapped := ok.largeMapped
  have small := ok.small.1
  have limit := ok.limit
  rw [Guarantees.grownLarge]
  refine ⟨ok.initial, ok.smallMapped, ok.largeMapped, ok.limit, ok.smallStart, ok.largeStart,
    ok.smallStop, ?_, ok.small, ⟨?_, ?_⟩, ?_, ok.tiling.push ?_ ?_,
    ok.room.grownLarge ok.tiling.stop_not_mem low (by omega)⟩
  · dsimp only
    omega
  · dsimp only
    omega
  · dsimp only
    simp only [blockSize] at *
    omega
  · dsimp only
    omega
  · simp only [chunkHeaderSize, blockSize] at *
    omega
  · simp only [sizeModulus, blockSize] at *
    omega

end HeapsOk

/-! ## Collections -/

namespace HeapsOk
variable {env : Env} {smallMap largeMap initialSize : Nat} {g g' : Gc} {chunks chunks' : List Nat}

theorem of_space (ok : HeapsOk smallMap largeMap initialSize g chunks)
    (same : space g'.global = space g.global)
    (tiling : Tiling g'.global.largeChunkList g.global.largeHeapStart g.global.largeHeapStop chunks')
    (room : HeaderRoom g'.global.largeChunkList chunks') :
    HeapsOk smallMap largeMap initialSize g' chunks' := by
  simp only [space, Space.mk.injEq] at same
  obtain ⟨smallStart, smallStop, small, largeStart, largeStop, large, limit⟩ := same
  refine ⟨ok.initial, limit ▸ ok.smallMapped, limit ▸ ok.largeMapped, limit ▸ ok.limit,
    smallStart ▸ ok.smallStart, largeStart ▸ ok.largeStart, ?_, ?_, small ▸ ok.small,
    large ▸ ok.large, ?_, ?_, room⟩
  · rw [smallStop, smallStart, small]
    exact ok.smallStop
  · rw [largeStop, largeStart, large]
    exact ok.largeStop
  · rw [small, large, limit]
    exact ok.total
  · rw [largeStart, largeStop]
    exact tiling

theorem tryAllocateLarge {size atomic mutator : Nat}
    (ok : HeapsOk smallMap largeMap initialSize g chunks)
    (enough : sizeofObject ≤ sizeAdd size sizeofObject)
    (success : GlobalAllocator.tryAllocateLarge env size atomic g = .ok (mutator, g')) :
    ∃ chunks', HeapsOk smallMap largeMap initialSize g' chunks' := by
  unfold GlobalAllocator.tryAllocateLarge at success
  rcases tryAllocateLargeFrom_spec ok.largeHeap size atomic env.fuel g.global.largeChunkList.first []
      chunks rfl ok.tiling.linked with ⟨running, -⟩ | ⟨none, -⟩ | ⟨c, member, list, g'', found, allocated⟩
  · rw [running] at success
    cases success
  · rw [none, Except.ok.injEq, Prod.mk.injEq] at success
    exact ⟨chunks, success.2 ▸ ok⟩
  · rw [found, Except.ok.injEq, Prod.mk.injEq] at success
    obtain ⟨-, rfl⟩ := success
    obtain ⟨chunks', served⟩ := allocated.served ok.largeHeap member
    refine ⟨chunks', ok.of_space ?_ served.tiling (ok.room.served enough served)⟩
    rw [allocated.result]
    rfl

/-- Both heaps stay in place through a collection. -/
theorem spaceKeeps (env : Env) (smallMap largeMap initialSize : Nat) :
    SpaceKeeps env (fun size => size ≤ 2 ^ 64 - 24) (fun list => Collector.shortLimit list = false)
      fun g => ∃ chunks, HeapsOk smallMap largeMap initialSize g chunks where
  congr := by
    rintro before after ⟨chunks, ok⟩ same list -
    exact ⟨chunks, ok.of_space same (list.tiling ok.tiling) (ok.room.congr fun c _ => list.size c)⟩
  growSmall := by
    rintro before after ⟨chunks, ok⟩ grown
    rw [growSmall_eq ok.bounds] at grown
    split at grown
    · cases grown
    · exact ⟨chunks, Except.ok.inj grown ▸ ok.grownSmall (by omega)⟩
  growLarge := by
    rintro before after increment ⟨chunks, ok⟩ grown
    obtain ⟨size, low, multiple, total, rfl⟩ := growLarge_ok ok.bounds grown
    exact ⟨_, ok.grownLarge low multiple total⟩
  allocate := by
    rintro before after size atomic pointer ⟨chunks, ok⟩ bound tried
    exact ok.tryAllocateLarge
      (by rw [(roundToNextMultiple_room bound).2]; exact Nat.le_add_left _ _) tried
  sweep := by
    rintro before list ⟨chunks, ok⟩ fits success
    obtain ⟨chunks', tiling, swept⟩ := ok.tiling.sweep_ok fits success
    exact ⟨chunks', ok.of_space rfl tiling (ok.room.grown ok.tiling tiling swept.subset)⟩

theorem tryCollect {after : Gc} (ok : HeapsOk smallMap largeMap initialSize g chunks)
    (fits : CollectionFits env g)
    (tried : GlobalAllocator.tryCollect (collectOnce env) g = .ok (true, after)) :
    ∃ chunks', HeapsOk smallMap largeMap initialSize after chunks' := by
  rcases tryCollect_cases tried with ⟨wrong, -⟩ | ⟨-, ran⟩
  · cases wrong
  · exact (spaceKeeps env smallMap largeMap initialSize).collectOnce ⟨chunks, ok⟩ fits ran

end HeapsOk

/-! ## The request after the growth -/

/-- `tryAllocateLarge` finds a chunk when there is a usable one. -/
theorem tryAllocateLarge_finds (env : Env) {g : Gc} {chunks : List Nat} {size chunk : Nat}
    (heap : LargeHeap g.global chunks) (member : chunk ∈ chunks) (usable : Usable g size chunk)
    (atomic : Nat) : GlobalAllocator.tryAllocateLarge env size atomic g = .error .running ∧
        env.fuel ≤ chunks.length ∨
      ∃ mutator g', GlobalAllocator.tryAllocateLarge env size atomic g = .ok (mutator, g') ∧
        mutator ≠ null := by
  rw [GlobalAllocator.tryAllocateLarge]
  rcases tryAllocateLargeFrom_spec heap size atomic env.fuel g.global.largeChunkList.first [] chunks
      rfl heap.tiling.linked with running | ⟨-, unusable⟩ | ⟨c, inRest, list, g', found, -⟩
  · exact Or.inl running
  · exact absurd usable (unusable chunk member)
  · refine Or.inr ⟨_, g', found, ?_⟩
    simp only [Chunk.mutatorAddress, sizeofChunk, null]
    omega

/-- The chunk that `growLarge` adds is large enough for the request. -/
theorem grownLarge_usable {g : Gc} {size rsize : Nat} (enough : rsize + sizeofChunk ≤ size)
    (fits : size < sizeModulus) : Usable (grownLarge g size) rsize g.global.largeHeapStop := by
  rw [Usable, grownLarge]
  dsimp only
  obtain ⟨link, pushed⟩ := push_chunk { g.global.largeChunkList with
    chunk := store g.global.largeChunkList.chunk g.global.largeHeapStop
      (Chunk.init (sizeSub size chunkHeaderSize)) } g.global.largeHeapStop g.global.largeHeapStop
  dsimp only at pushed
  rw [store_same] at pushed
  rw [pushed]
  refine ⟨rfl, ?_⟩
  show sizeAdd rsize sizeofObject ≤ sizeSub size chunkHeaderSize
  simp only [sizeAdd, sizeSub, sizeofObject, sizeofChunk, chunkHeaderSize, sizeModulus] at *
  omega

section Requests
variable {env : Env} {collect : Gc → Result Gc} {smallMap largeMap initialSize : Nat} {g : Gc}
  {chunks : List Nat}

/-- `growLarge` for a request: the limit is reached, or the new chunk has room for it. -/
theorem growLarge_room (bounds : Bounds g.global) (exact : ExactLog env) {rsize : Nat}
    (request : rsize < 2 ^ 62) :
    GlobalAllocator.growLarge env (sizeAdd rsize sizeofChunk) g = .error outOfMemory ∨
    ∃ size, GlobalAllocator.growLarge env (sizeAdd rsize sizeofChunk) g = .ok (grownLarge g size) ∧
      blockSize ≤ size ∧ size % blockSize = 0 ∧
      g.global.smallHeapSize + g.global.largeHeapSize + size ≤ g.global.memoryLimit ∧
      Usable (grownLarge g size) rsize g.global.largeHeapStop := by
  have sum : sizeAdd rsize sizeofChunk = rsize + sizeofChunk :=
    sizeAdd_eq (by simp only [sizeofChunk, sizeModulus]; omega)
  have log := exact (rsize + sizeofChunk) (by simp only [sizeofChunk]; omega)
  have shift : env.ceilLog2 (rsize + sizeofChunk) < 64 := by
    have := Nat.clog_le_of_le_pow (b := 2) (x := rsize + sizeofChunk) (y := 63)
      (by simp only [sizeofChunk]; omega)
    omega
  obtain ⟨power, low, high, multiple⟩ := largeIncrement_spec shift
  have enough : rsize + sizeofChunk ≤ largeIncrement env (rsize + sizeofChunk) := by
    have := Nat.le_pow_clog (b := 2) (by decide) (rsize + sizeofChunk)
    rw [← log] at this
    omega
  rw [sum, growLarge_eq bounds shift]
  split
  · exact Or.inl rfl
  · next room =>
    exact Or.inr ⟨_, rfl, low, multiple, by omega,
      grownLarge_usable enough (by simp only [sizeModulus]; omega)⟩

/-- `growLarge` for a request, and the allocation after it. -/
theorem HeapsOk.growLarge (ok : HeapsOk smallMap largeMap initialSize g chunks)
    (exact : ExactLog env) {rsize : Nat} (request : rsize < 2 ^ 62) :
    GlobalAllocator.growLarge env (sizeAdd rsize sizeofChunk) g = .error outOfMemory ∨
    ∃ g', GlobalAllocator.growLarge env (sizeAdd rsize sizeofChunk) g = .ok g' ∧
      HeapsOk smallMap largeMap initialSize g' (chunks ++ [g.global.largeHeapStop]) ∧
      ∀ atomic, GlobalAllocator.tryAllocateLarge env rsize atomic g' = .error .running ∧
          env.fuel ≤ chunks.length + 1 ∨
        ∃ mutator g'', GlobalAllocator.tryAllocateLarge env rsize atomic g' = .ok (mutator, g'') ∧
          mutator ≠ null := by
  obtain refused | ⟨size, grown, low, multiple, total, usable⟩ := growLarge_room ok.bounds exact request
  · exact Or.inl refused
  · have ok' := ok.grownLarge low multiple total
    refine Or.inr ⟨_, grown, ok', fun atomic => ?_⟩
    have finds := tryAllocateLarge_finds env ok'.largeHeap (by simp) usable atomic
    rw [List.length_append, List.length_singleton] at finds
    exact finds

/-- `growSmall` aborts at the limit or adds blocks. -/
theorem HeapsOk.growSmall (ok : HeapsOk smallMap largeMap initialSize g chunks) :
    GlobalAllocator.growSmall g = .error outOfMemory ∨
    ∃ g', GlobalAllocator.growSmall g = .ok g' ∧ HeapsOk smallMap largeMap initialSize g' chunks ∧
      newBlocks g g' ≠ [] ∧
      ∀ items, FreeBlocks g items → (PushesNewBlocks g g' items ↔ CountsBlocks g) := by
  rw [growSmall_eq ok.bounds]
  split
  · exact Or.inl rfl
  · next room =>
    refine Or.inr ⟨_, rfl, ok.grownSmall (by omega), ?_, fun items => ok.pushesNewBlocks_iff⟩
    rw [HeapsOk.newBlocks_grownSmall, ne_eq, List.map_eq_nil_iff, List.range_eq_nil]
    exact (Nat.div_pos ok.smallIncrement_pos (by decide)).ne'

theorem takeFree_ok (some : g.global.freeList.first ≠ null) :
    ∃ g', GlobalAllocator.takeFree g = .ok (g.global.freeList.first, g') := by
  rw [GlobalAllocator.takeFree, GlobalAllocator.shiftFree, BlockList.shift, if_pos some]
  dsimp only
  rw [if_pos some]
  exact ⟨_, rfl⟩

/-- After a growth that counted its blocks, taking one succeeds. -/
theorem HeapsOk.growSmall_takes (ok : HeapsOk smallMap largeMap initialSize g chunks)
    (counts : CountsBlocks g) {g' : Gc} (grown : GlobalAllocator.growSmall g = .ok g') :
    ∃ block g'', GlobalAllocator.takeFree g' = .ok (block, g'') ∧ block ≠ null := by
  rw [growSmall_eq ok.bounds] at grown
  split at grown
  · cases grown
  have first : g'.global.freeList.first ≠ null := by
    rw [← Except.ok.inj grown, Guarantees.grownSmall, countedBlocks, intOf_toNat_iff.mpr counts]
    refine pushBlocks_first _ _ _ (fun item member => ?_) (Or.inr ?_)
    · obtain ⟨i, -, rfl⟩ := List.mem_map.mp member
      have positive := ok.smallStop_pos
      simp only [null]
      omega
    · rw [ne_eq, List.map_eq_nil_iff, List.range_eq_nil]
      exact (Nat.div_pos ok.smallIncrement_pos (by decide)).ne'
  obtain ⟨g'', taken⟩ := takeFree_ok first
  exact ⟨_, g'', taken, first⟩

/-- Steps 5 to 7 of `nextBlock` abort only when the memory limit is reached. -/
theorem HeapsOk.growAndTakeFree_aborts (ok : HeapsOk smallMap largeMap initialSize g chunks)
    (counts : CountsBlocks g) {stop : Stop}
    (ends : GlobalAllocator.growAndTakeFree g = .error stop) : stop = outOfMemory := by
  rw [GlobalAllocator.growAndTakeFree, GlobalAllocator.growIfEmpty] at ends
  split at ends
  · obtain refused | ⟨g', grown, -⟩ := ok.growSmall
    · rw [refused, error_bind] at ends
      exact (Except.error.inj ends).symm
    · obtain ⟨block, g'', taken, -⟩ := ok.growSmall_takes counts grown
      rw [grown, ok_bind, taken] at ends
      cases ends
  · next full =>
    rw [ok_bind] at ends
    obtain ⟨g', taken⟩ := takeFree_ok (g := g) (by simpa [BlockList.isEmpty] using full)
    rw [taken] at ends
    cases ends

/-- Step 3 of `nextFreeBlock`. -/
theorem HeapsOk.growThenTakeFree_aborts (ok : HeapsOk smallMap largeMap initialSize g chunks)
    (counts : CountsBlocks g) {stop : Stop}
    (ends : (GlobalAllocator.growSmall g >>= GlobalAllocator.takeFree) = .error stop) :
    stop = outOfMemory := by
  obtain refused | ⟨g', grown, -⟩ := ok.growSmall
  · rw [refused, error_bind] at ends
    exact (Except.error.inj ends).symm
  · obtain ⟨block, g'', taken, -⟩ := ok.growSmall_takes counts grown
    rw [grown, ok_bind, taken] at ends
    cases ends

theorem tryCollect_aborts {message : String}
    (ends : GlobalAllocator.tryCollect collect g = .error (.abort message)) :
    collect g = .error (.abort message) := by
  rw [GlobalAllocator.tryCollect] at ends
  split at ends
  · cases ends
  split at ends
  · cases ends
  split at ends
  · cases ends
  cases collected : collect g with
  | error stop =>
    rw [collected, error_bind] at ends
    rw [Except.error.inj ends]
  | ok after =>
    rw [collected, ok_bind] at ends
    cases ends

/-- `nextBlock` aborts only at the memory limit, or when the collection it runs does. -/
theorem HeapsOk.nextBlock_aborts (ok : HeapsOk smallMap largeMap initialSize g chunks)
    (counts : CountsBlocks g) (keeps : ∀ after, GlobalAllocator.tryCollect collect g = .ok (true, after) →
      (∃ chunks', HeapsOk smallMap largeMap initialSize after chunks') ∧ CountsBlocks after)
    {message : String} (ends : GlobalAllocator.nextBlock collect g = .error (.abort message)) :
    .abort message = outOfMemory ∨ collect g = .error (.abort message) := by
  rw [GlobalAllocator.nextBlock] at ends
  have noRecyclable := @shiftRecyclable_null g
  generalize GlobalAllocator.shiftRecyclable g = first at *
  obtain ⟨block, g₁⟩ := first
  dsimp only at ends noRecyclable
  split at ends
  · cases ends
  next none =>
  rw [noRecyclable (Classical.not_not.mp none)] at ends
  clear noRecyclable none
  have noFree := @shiftFree_null g
  generalize GlobalAllocator.shiftFree g = second at *
  obtain ⟨block', g₂⟩ := second
  dsimp only at ends noFree
  split at ends
  · cases ends
  next none =>
  rw [noFree (Classical.not_not.mp none)] at ends
  clear noFree none
  cases tried : GlobalAllocator.tryCollect collect g with
  | error stop =>
    rw [tried, error_bind] at ends
    rw [Except.error.inj ends] at tried
    exact Or.inr (tryCollect_aborts tried)
  | ok result =>
    obtain ⟨collected, g₃⟩ := result
    rw [tried, ok_bind] at ends
    dsimp only at ends
    rcases tryCollect_cases tried with ⟨rfl, rfl⟩ | ⟨rfl, -⟩
    · rw [if_neg (by decide)] at ends
      exact Or.inl (ok.growAndTakeFree_aborts counts ends)
    rw [if_pos rfl] at ends
    obtain ⟨⟨chunks', ok₃⟩, counts₃⟩ := keeps g₃ tried
    have noRecyclable := @shiftRecyclable_null g₃
    generalize GlobalAllocator.shiftRecyclable g₃ = third at *
    obtain ⟨block'', g₄⟩ := third
    dsimp only at ends noRecyclable
    split at ends
    · cases ends
    · next none =>
      rw [noRecyclable (Classical.not_not.mp none)] at ends
      exact Or.inl (ok₃.growAndTakeFree_aborts counts₃ ends)

/-- `nextFreeBlock` likewise. -/
theorem HeapsOk.nextFreeBlock_aborts (ok : HeapsOk smallMap largeMap initialSize g chunks)
    (counts : CountsBlocks g) (keeps : ∀ after, GlobalAllocator.tryCollect collect g = .ok (true, after) →
      (∃ chunks', HeapsOk smallMap largeMap initialSize after chunks') ∧ CountsBlocks after)
    {message : String} (ends : GlobalAllocator.nextFreeBlock collect g = .error (.abort message)) :
    .abort message = outOfMemory ∨ collect g = .error (.abort message) := by
  rw [GlobalAllocator.nextFreeBlock] at ends
  have noFree := @shiftFree_null g
  generalize GlobalAllocator.shiftFree g = first at *
  obtain ⟨block, g₁⟩ := first
  dsimp only at ends noFree
  split at ends
  · cases ends
  next none =>
  rw [noFree (Classical.not_not.mp none)] at ends
  clear noFree none
  cases tried : GlobalAllocator.tryCollect collect g with
  | error stop =>
    rw [tried, error_bind] at ends
    rw [Except.error.inj ends] at tried
    exact Or.inr (tryCollect_aborts tried)
  | ok result =>
    obtain ⟨collected, g₂⟩ := result
    rw [tried, ok_bind] at ends
    dsimp only at ends
    rcases tryCollect_cases tried with ⟨rfl, rfl⟩ | ⟨rfl, -⟩
    · rw [if_neg (by decide)] at ends
      exact Or.inl (ok.growThenTakeFree_aborts counts ends)
    · rw [if_pos rfl] at ends
      obtain ⟨⟨chunks', ok₂⟩, counts₂⟩ := keeps g₂ tried
      exact Or.inl (ok₂.growAndTakeFree_aborts counts₂ ends)

/-- The steps after the last collection of `allocateLarge`. -/
theorem HeapsOk.growAndAllocateLarge_aborts (ok : HeapsOk smallMap largeMap initialSize g chunks)
    (exact : ExactLog env) {rsize atomic : Nat} (request : rsize < 2 ^ 62) {message : String}
    (ends : GlobalAllocator.growAndAllocateLarge env rsize atomic g = .error (.abort message)) :
    .abort message = outOfMemory := by
  rw [GlobalAllocator.growAndAllocateLarge] at ends
  obtain refused | ⟨g', grown, -, tries⟩ := ok.growLarge exact request
  · rw [refused, error_bind] at ends
    exact (Except.error.inj ends).symm
  rw [grown, ok_bind] at ends
  rcases tries atomic with ⟨running, -⟩ | ⟨mutator, g'', found, some⟩
  · rw [running, error_bind] at ends
    cases ends
  · rw [found, ok_bind] at ends
    dsimp only at ends
    rw [if_pos some] at ends
    cases ends

/-- `allocateLarge` aborts only at the memory limit, or when the collection it runs does. -/
theorem HeapsOk.allocateLarge_aborts (ok : HeapsOk smallMap largeMap initialSize g chunks)
    (exact : ExactLog env) (keeps : ∀ after, GlobalAllocator.tryCollect collect g = .ok (true, after) →
      ∃ chunks', HeapsOk smallMap largeMap initialSize after chunks')
    {size atomic : Nat} (request : roundToNextMultiple size wordSize < 2 ^ 62) {message : String}
    (ends : GlobalAllocator.allocateLarge env collect size atomic g = .error (.abort message)) :
    .abort message = outOfMemory ∨ collect g = .error (.abort message) := by
  rw [GlobalAllocator.allocateLarge] at ends
  dsimp only at ends
  generalize roundToNextMultiple size wordSize = rsize at *
  -- a walk of the list never aborts
  have walk : ∀ {g : Gc} {chunks}, LargeHeap g.global chunks →
      GlobalAllocator.tryAllocateLarge env rsize atomic g = .error .running ∨
      GlobalAllocator.tryAllocateLarge env rsize atomic g = .ok (null, g) ∨
      ∃ mutator g', GlobalAllocator.tryAllocateLarge env rsize atomic g = .ok (mutator, g') ∧
        mutator ≠ null := by
    intro g chunks heap
    rw [GlobalAllocator.tryAllocateLarge]
    rcases tryAllocateLargeFrom_spec heap rsize atomic env.fuel g.global.largeChunkList.first []
        chunks rfl heap.tiling.linked with ⟨running, -⟩ | ⟨none, -⟩ | ⟨c, -, list, g', found, -⟩
    · exact Or.inl running
    · exact Or.inr (Or.inl none)
    · refine Or.inr (Or.inr ⟨_, g', found, ?_⟩)
      simp only [Chunk.mutatorAddress, sizeofChunk, null]
      omega
  rcases walk ok.largeHeap with running | none | ⟨mutator, g', found, some⟩
  · rw [running, error_bind] at ends
    cases ends
  · rw [none, ok_bind] at ends
    dsimp only at ends
    rw [if_neg (not_not_intro rfl)] at ends
    cases tried : GlobalAllocator.tryCollect collect g with
    | error stop =>
      rw [tried, error_bind] at ends
      rw [Except.error.inj ends] at tried
      exact Or.inr (tryCollect_aborts tried)
    | ok result =>
      obtain ⟨collected, g₂⟩ := result
      rw [tried, ok_bind] at ends
      dsimp only at ends
      rcases tryCollect_cases tried with ⟨rfl, rfl⟩ | ⟨rfl, -⟩
      · rw [if_neg (by decide)] at ends
        exact Or.inl (ok.growAndAllocateLarge_aborts exact request ends)
      · rw [if_pos rfl] at ends
        obtain ⟨chunks', ok₂⟩ := keeps g₂ tried
        rcases walk ok₂.largeHeap with running | none | ⟨mutator, g', found, some⟩
        · rw [running, error_bind] at ends
          cases ends
        · rw [none, ok_bind] at ends
          dsimp only at ends
          rw [if_neg (not_not_intro rfl)] at ends
          exact Or.inl (ok₂.growAndAllocateLarge_aborts exact request ends)
        · rw [found, ok_bind] at ends
          dsimp only at ends
          rw [if_pos some] at ends
          cases ends
  · rw [found, ok_bind] at ends
    dsimp only at ends
    rw [if_pos some] at ends
    cases ends

/-- A collection that `tryCollect` runs in `g` keeps the extents, and the growth after it can be
counted. -/
def CollectionCounts (env : Env) (g : Gc) : Prop :=
  ∀ after, GlobalAllocator.tryCollect (collectOnce env) g = .ok (true, after) →
    CollectionFits env g ∧ CountsBlocks after

/-- Growing keeps both heaps inside their mappings and satisfies the request that asked for
it, as far as `growSmall` counts its blocks; the final aborts are then out of reach, in the calls
of the client and in those that a collection makes. -/
theorem heaps_grow_inside_mappings (exact : ExactLog env)
    (ok : HeapsOk smallMap largeMap initialSize g chunks) :
    InsideMappings smallMap largeMap g ∧
    (GlobalAllocator.growSmall g = .error outOfMemory ∨
      ∃ g', GlobalAllocator.growSmall g = .ok g' ∧
        HeapsOk smallMap largeMap initialSize g' chunks ∧ InsideMappings smallMap largeMap g' ∧
        newBlocks g g' ≠ [] ∧
        ∀ items, FreeBlocks g items → (PushesNewBlocks g g' items ↔ CountsBlocks g)) ∧
    (∀ rsize < 2 ^ 62, GlobalAllocator.growLarge env (sizeAdd rsize sizeofChunk) g =
        .error outOfMemory ∨
      ∃ g', GlobalAllocator.growLarge env (sizeAdd rsize sizeofChunk) g = .ok g' ∧
        HeapsOk smallMap largeMap initialSize g' (chunks ++ [g.global.largeHeapStop]) ∧
        InsideMappings smallMap largeMap g' ∧
        ∀ atomic, chunks.length + 1 < env.fuel →
          ∃ mutator g'', GlobalAllocator.tryAllocateLarge env rsize atomic g' = .ok (mutator, g'') ∧
            mutator ≠ null) ∧
    (∀ message,
      (CountsBlocks g → CollectionCounts env g →
        GlobalAllocator.nextBlock (collectOnce env) g = .error (.abort message) →
        .abort message = outOfMemory ∨ collectOnce env g = .error (.abort message)) ∧
      (CountsBlocks g → CollectionCounts env g →
        GlobalAllocator.nextFreeBlock (collectOnce env) g = .error (.abort message) →
        .abort message = outOfMemory ∨ collectOnce env g = .error (.abort message)) ∧
      (∀ size atomic, roundToNextMultiple size wordSize < 2 ^ 62 →
        (∀ after, GlobalAllocator.tryCollect (collectOnce env) g = .ok (true, after) →
          CollectionFits env g) →
        GlobalAllocator.allocateLarge env (collectOnce env) size atomic g = .error (.abort message) →
        .abort message = outOfMemory ∨ collectOnce env g = .error (.abort message))) ∧
    ∀ message,
      (CountsBlocks g → GlobalAllocator.nextBlock noCollect g = .error (.abort message) →
        .abort message = outOfMemory) ∧
      (CountsBlocks g → GlobalAllocator.nextFreeBlock noCollect g = .error (.abort message) →
        .abort message = outOfMemory) ∧
      (∀ size atomic, roundToNextMultiple size wordSize < 2 ^ 62 →
        GlobalAllocator.allocateLarge env noCollect size atomic g = .error (.abort message) →
        .abort message = outOfMemory) := by
  have quiet : ∀ after, GlobalAllocator.tryCollect noCollect g = .ok (true, after) → False := by
    intro after tried
    rcases tryCollect_cases tried with ⟨wrong, -⟩ | ⟨-, ran⟩
    · cases wrong
    · cases ran
  refine ⟨ok.inside, ?_, fun rsize request => ?_, fun message => ⟨?_, ?_, ?_⟩,
    fun message => ⟨?_, ?_, ?_⟩⟩
  · obtain refused | ⟨g', grown, ok', some, pushes⟩ := ok.growSmall
    · exact Or.inl refused
    · exact Or.inr ⟨g', grown, ok', ok'.inside, some, pushes⟩
  · obtain refused | ⟨g', grown, ok', tries⟩ := ok.growLarge exact request
    · exact Or.inl refused
    · refine Or.inr ⟨g', grown, ok', ok'.inside, fun atomic enough => ?_⟩
      exact (tries atomic).resolve_left fun short => absurd short.2 (by omega)
  · intro counts collection ends
    exact ok.nextBlock_aborts counts (fun after tried =>
      ⟨ok.tryCollect (collection after tried).1 tried, (collection after tried).2⟩) ends
  · intro counts collection ends
    exact ok.nextFreeBlock_aborts counts (fun after tried =>
      ⟨ok.tryCollect (collection after tried).1 tried, (collection after tried).2⟩) ends
  · intro size atomic request collection ends
    exact ok.allocateLarge_aborts exact (fun after tried =>
      ok.tryCollect (collection after tried) tried) request ends
  · intro counts ends
    exact (ok.nextBlock_aborts counts (fun after tried => (quiet after tried).elim) ends).resolve_right
      fun aborts => by cases aborts
  · intro counts ends
    exact (ok.nextFreeBlock_aborts counts (fun after tried => (quiet after tried).elim)
      ends).resolve_right fun aborts => by cases aborts
  · intro size atomic request ends
    exact (ok.allocateLarge_aborts exact (fun after tried => (quiet after tried).elim) request
      ends).resolve_right fun aborts => by cases aborts

end Requests

/-! ## A heap of two blocks, and one that grows by 2^32 blocks -/

/-- A heap with `smallHeapSize` bytes of blocks, none of them free, and one large chunk. -/
def plainHeap (smallHeapSize memoryLimit : Nat) : Gc :=
  bareGc (fun _ => Block.init)
    { smallHeapSize := smallHeapSize
      smallHeapStart := 0x100000
      smallHeapStop := 0x100000 + smallHeapSize
      freeList := BlockList.clear
      recyclableList := BlockList.clear
      largeHeapSize := 65536
      largeHeapStart := 2 ^ 60
      largeHeapStop := 2 ^ 60 + 65536
      largeChunkList := ⟨fun _ => Chunk.init 65520, 2 ^ 60, 2 ^ 60, 1⟩
      finalizers := ⟨fun _ => ⟨.free, 0, 0⟩, 7, 0, 0⟩
      memoryLimit := memoryLimit
      freeSpaceDivisor := 3
      allocatedBytesSinceCollect := 0
      totalAllocatedBytes := 0 }

theorem plainHeap_ok {smallHeapSize memoryLimit : Nat} (limit : memoryLimit < 2 ^ 57)
    (total : smallHeapSize + 65536 ≤ memoryLimit) (least : 2 * blockSize ≤ smallHeapSize)
    (multiple : smallHeapSize % blockSize = 0) :
    HeapsOk 0x100000 (2 ^ 60) 65536 (plainHeap smallHeapSize memoryLimit) [2 ^ 60] := by
  have smallStart : 0x100000 = GlobalAllocator.mapAndAlign 0x100000 65536 := by decide
  have largeStart : 2 ^ 60 = GlobalAllocator.mapAndAlign (2 ^ 60) 65536 := by decide
  have large : 2 * blockSize ≤ 65536 ∧ 65536 % blockSize = 0 := by decide
  have stop : 2 ^ 60 + chunkHeaderSize + 65520 = 2 ^ 60 + 65536 := by decide
  have range : 0 < 2 ^ 60 ∧ 2 ^ 60 + 65536 ≤ sizeModulus := by decide
  have room : sizeofObject ≤ 65520 := by decide
  refine ⟨by decide, ⟨by decide, ?_⟩, ⟨by decide, ?_⟩, limit, smallStart, largeStart, rfl, rfl,
    ⟨least, multiple⟩, large, total, ⟨⟨rfl, rfl⟩, ⟨rfl, stop⟩, rfl, rfl, range.1, range.2⟩,
    fun _ _ => room⟩
  · show 0x100000 + memoryLimit ≤ sizeModulus
    simp only [sizeModulus]
    omega
  · show 2 ^ 60 + memoryLimit ≤ sizeModulus
    simp only [sizeModulus]
    omega

/-- The heap of two blocks when the next request for a block runs a collection. -/
def busyHeap : Gc :=
  { plainHeap 65536 (2 ^ 40) with
    global := { (plainHeap 65536 (2 ^ 40)).global with allocatedBytesSinceCollect := 65536 } }

def exactEnv : Env := ⟨100, Nat.clog 2, fun _ _ => []⟩

theorem busyHeap_ok : HeapsOk 0x100000 (2 ^ 60) 65536 busyHeap [2 ^ 60] :=
  have ok : HeapsOk 0x100000 (2 ^ 60) 65536 (plainHeap 65536 (2 ^ 40)) [2 ^ 60] :=
    plainHeap_ok (by decide) (by decide) (by decide) (by decide)
  ok.of_space rfl ok.tiling ok.room

theorem busyHeap_fits : CollectionFits exactEnv busyHeap := .of_ends (by decide +kernel)

theorem busyHeap_counts : CollectionCounts exactEnv busyHeap := by
  intro after collected
  have size : (GlobalAllocator.tryCollect (collectOnce exactEnv) busyHeap).map
      (fun result => result.2.global.smallHeapSize) = .ok 65536 := by decide +kernel
  rw [collected] at size
  have same : after.global.smallHeapSize = 65536 := Except.ok.inj size
  refine ⟨busyHeap_fits, ?_⟩
  rw [CountsBlocks, smallIncrement, same]
  decide

/-- A small heap of two blocks grows by one, a large one by 128 KiB, and requests for blocks and
for 40000 bytes collect and do not end in a final abort. -/
theorem twoBlocks_grow : InsideMappings 0x100000 (2 ^ 60) busyHeap ∧
    (GlobalAllocator.tryCollect (collectOnce exactEnv) busyHeap).map (fun result => result.1) =
      .ok true ∧
    (∃ g', GlobalAllocator.growSmall busyHeap = .ok g' ∧ InsideMappings 0x100000 (2 ^ 60) g' ∧
      newBlocks busyHeap g' ≠ [] ∧ PushesNewBlocks busyHeap g' []) ∧
    (∃ g', GlobalAllocator.growLarge exactEnv (sizeAdd 100000 sizeofChunk) busyHeap = .ok g' ∧
      ∃ mutator g'', GlobalAllocator.tryAllocateLarge exactEnv 100000 0 g' = .ok (mutator, g'') ∧
        mutator ≠ null) ∧
    (∀ message,
      (GlobalAllocator.nextBlock (collectOnce exactEnv) busyHeap = .error (.abort message) →
        .abort message = outOfMemory ∨ collectOnce exactEnv busyHeap = .error (.abort message)) ∧
      (GlobalAllocator.nextFreeBlock (collectOnce exactEnv) busyHeap = .error (.abort message) →
        .abort message = outOfMemory ∨ collectOnce exactEnv busyHeap = .error (.abort message)) ∧
      (GlobalAllocator.allocateLarge exactEnv (collectOnce exactEnv) 40000 0 busyHeap =
          .error (.abort message) →
        .abort message = outOfMemory ∨ collectOnce exactEnv busyHeap = .error (.abort message))) ∧
    ∀ message,
      (GlobalAllocator.nextBlock noCollect busyHeap = .error (.abort message) →
        .abort message = outOfMemory) ∧
      (GlobalAllocator.nextFreeBlock noCollect busyHeap = .error (.abort message) →
        .abort message = outOfMemory) ∧
      (GlobalAllocator.allocateLarge exactEnv noCollect 40000 0 busyHeap = .error (.abort message) →
        .abort message = outOfMemory) := by
  have exact : ExactLog exactEnv := fun _ _ => rfl
  obtain ⟨inside, small, large, collects, nested⟩ := heaps_grow_inside_mappings exact busyHeap_ok
  have counts : CountsBlocks busyHeap := by decide +kernel
  refine ⟨inside, by decide +kernel, ?_, ?_, fun message => ⟨?_, ?_, ?_⟩, fun message => ⟨?_, ?_, ?_⟩⟩
  · have returns : (GlobalAllocator.growSmall busyHeap).toBool = true := by decide +kernel
    rcases small with refused | ⟨g', grown, -, inside', some, pushes⟩
    · rw [refused] at returns
      cases returns
    · exact ⟨g', grown, inside', some, (pushes [] ⟨.empty _, by simp⟩).mpr counts⟩
  · have returns : (GlobalAllocator.growLarge exactEnv (sizeAdd 100000 sizeofChunk)
        busyHeap).toBool = true := by decide +kernel
    rcases large 100000 (by decide) with refused | ⟨g', grown, -, -, tries⟩
    · rw [refused] at returns
      cases returns
    · exact ⟨g', grown, tries 0 (by decide)⟩
  · exact (collects message).1 counts busyHeap_counts
  · exact (collects message).2.1 counts busyHeap_counts
  · exact (collects message).2.2 40000 0 (by decide) fun _ _ => busyHeap_fits
  · exact (nested message).1 counts
  · exact (nested message).2.1 counts
  · exact (nested message).2.2 40000 0 (by decide)

/-- A small heap of 14316557653 blocks grows by 2^32 blocks, which an `int` counts as none:
nothing is pushed, and `nextBlock` ends in its final abort. -/
theorem uncounted_blocks_abort :
    HeapsOk 0x100000 (2 ^ 60) 65536 (plainHeap (14316557653 * 32768) (2 ^ 50)) [2 ^ 60] ∧
    (GlobalAllocator.growSmall (plainHeap (14316557653 * 32768) (2 ^ 50))).map (fun g' =>
      (g'.global.smallHeapSize - 14316557653 * 32768, g'.global.freeList)) =
      .ok (2 ^ 32 * 32768, BlockList.clear) ∧
    (GlobalAllocator.nextBlock noCollect (plainHeap (14316557653 * 32768) (2 ^ 50))).map
      (fun r => r.1) = .error finalAbort :=
  ⟨plainHeap_ok (by decide) (by decide) (by decide) (by decide), by decide +kernel, by decide +kernel⟩

end ImmixGc.Guarantees
