import ImmixGc.Guarantees.LargeAllocation
import ImmixGc.Guarantees.SmallRuns

/-!
# The live objects of the large heap

A live object of the large heap is an allocated chunk of the list, with all its bytes. A
collection keeps the marked ones, unless its sweep has to measure a long last chunk.
-/
namespace ImmixGc.Guarantees
open Source Foundation

/-- The object is an allocated chunk of the list. -/
def IsChunk (list : ChunkList) (chunks : List Nat) (a : Allocation) : Prop :=
  ∃ chunk ∈ chunks, a.object = chunk + chunkHeaderSize ∧ (list.chunk chunk).isAllocated = true ∧
    (list.chunk chunk).object.size = a.size

/-- The large heap of a reachable state, with the objects in it. -/
structure LargeLive (env : Env) (chunks : List Nat) (g : Gc) : Prop where
  ok : LargeOk g.global chunks
  live : ∀ a ∈ g.history.live, g.global.inLargeHeap a.object = true →
    IsChunk g.global.largeChunkList chunks a
  finalizers : StoresOnly env ∨ Hash.create 8 = .ok g.global.finalizers

theorem SameChunks.isChunk {list list' : ChunkList} {chunks : List Nat} {a : Allocation}
    (same : SameChunks list list')
    (isChunk : IsChunk list chunks a) : IsChunk list' chunks a := by
  obtain ⟨chunk, member, object, allocated, size⟩ := isChunk
  exact ⟨chunk, member, object, (same.allocated chunk).trans allocated, (same.size chunk).trans size⟩

theorem SameBounds.inLargeHeap {g g' : Gc} (same : SameBounds g g') (a : Nat) :
    g'.global.inLargeHeap a = g.global.inLargeHeap a := by
  rw [GlobalAllocator.inLargeHeap, GlobalAllocator.inLargeHeap, same.start, same.stop]

section Live
variable {env : Env} {g g' : Gc} {chunks : List Nat}

namespace LargeLive

theorem congr (large : LargeLive env chunks g) (bounds : SameBounds g g')
    (list : SameChunks g.global.largeChunkList g'.global.largeChunkList)
    (live : g'.history.live.Sublist g.history.live)
    (finalizers : StoresOnly env ∨ g'.global.finalizers = g.global.finalizers) :
    LargeLive env chunks g' := by
  refine ⟨bounds.largeOk large.ok (list.tiling large.ok.heap.tiling) fun _ member => member,
    fun a member inLarge => ?_, ?_⟩
  · rw [bounds.inLargeHeap] at inLarge
    exact list.isChunk (large.live a (live.subset member) inLarge)
  · rcases finalizers with stores | same
    · exact Or.inl stores
    · rw [same]
      exact large.finalizers

theorem growSmall (large : LargeLive env chunks g) (success : GlobalAllocator.growSmall g = .ok g') :
    LargeLive env chunks g' := by
  have ok := large.ok.growSmall success
  obtain ⟨increment, count, size, -, -, -, rfl⟩ := growSmall_pushes success
  exact ⟨ok, large.live, large.finalizers⟩

theorem markingKeeps : MarkingKeeps (LargeLive env chunks) where
  chunks g chunk large _ := large.congr ⟨rfl, rfl, rfl, rfl, rfl⟩ (.setMarked _ chunk 1)
    (List.Sublist.refl _) (Or.inr rfl)
  roots _ _ large :=
    large.congr ⟨rfl, rfl, rfl, rfl, rfl⟩ (.refl _) (List.Sublist.refl _) (Or.inr rfl)
  script _ _ large :=
    large.congr ⟨rfl, rfl, rfl, rfl, rfl⟩ (.refl _) (List.Sublist.refl _) (Or.inr rfl)
  find g g' pointer large _ success := by
    rcases findAndMark_cases success with rfl | ⟨i, object, -, -, rfl⟩
    · exact large
    · rw [Collector.scanObject]
      split <;>
        exact large.congr ⟨rfl, rfl, rfl, rfl, rfl⟩ (.refl _) (List.Sublist.refl _) (Or.inr rfl)

theorem clientStore {address value : Nat} (large : LargeLive env chunks g)
    (success : g.clientStore address value = .ok g') : LargeLive env chunks g' := by
  rw [Gc.clientStore] at success
  split at success
  · rw [← Except.ok.inj success]
    exact large.congr ⟨rfl, rfl, rfl, rfl, rfl⟩ (.refl _) (List.Sublist.refl _) (Or.inr rfl)
  · cases success

theorem callFinalizer {callback object : Nat} (stores : StoresOnly env)
    (large : LargeLive env chunks g)
    (success : Collector.callFinalizer env callback object g = .ok g') : LargeLive env chunks g' :=
  callFinalizer_keeps
    (fun _ large =>
      large.congr ⟨rfl, rfl, rfl, rfl, rfl⟩ (.refl _) (List.Sublist.refl _) (Or.inr rfl))
    (fun _ _ _ _ large stored => large.clientStore stored) (Or.inl stores) large success

theorem finalizeObjects (large : LargeLive env chunks g)
    (success : Collector.finalizeObjects env g = .ok g') : LargeLive env chunks g' := by
  rcases large.finalizers with stores | empty
  · exact finalizeObjects_keeps
      (fun _ _ large =>
        large.congr ⟨rfl, rfl, rfl, rfl, rfl⟩ (.refl _) (List.Sublist.refl _) (Or.inl stores))
      (fun _ _ _ _ large called => large.callFinalizer stores called) large success
  · rw [finalizeObjects_empty env empty] at success
    exact Except.ok.inj success ▸ large

/-- The large heap when all reachable objects are marked. -/
theorem marked {list : ChunkList} {rooted marked : Gc} (large : LargeLive env chunks g)
    (unmarking : Collector.unmarkLargeFrom env.fuel
      (Collector.unmarkSmallObjects (setCollecting g true)).global.largeChunkList.first
      (Collector.unmarkSmallObjects (setCollecting g true)).global.largeChunkList = .ok list)
    (rooting : Collector.callCollectCallback (Collector.withChunkList
      (Collector.unmarkSmallObjects (setCollecting g true)) list) = .ok rooted)
    (marking : Collector.mark env env.fuel rooted = .ok marked) :
    LargeLive env chunks { marked with global := marked.global.resetCounters } := by
  obtain ⟨memory, block, unmarked⟩ := unmarkSmallObjects_frame (setCollecting g true)
  rw [unmarked] at unmarking rooting
  have start : LargeLive env chunks (Collector.withChunkList
      { setCollecting g true with memory := memory, block := block } list) :=
    large.congr ⟨rfl, rfl, rfl, rfl, rfl⟩ (.unmarkLarge _ _ unmarking) (List.Sublist.refl _) (Or.inr rfl)
  have marked' := markingKeeps.mark _ (markingKeeps.callCollectCallback start rooting) marking
  exact marked'.congr ⟨rfl, rfl, rfl, rfl, rfl⟩ (.refl _) (List.Sublist.refl _) (Or.inr rfl)

/-- `Collector_sweep` keeps the marked chunks. -/
theorem sweep {list : ChunkList} (large : LargeLive env chunks g)
    (fits : Collector.shortLimit g.global.largeChunkList = false)
    (success : ChunkList.sweep env.fuel
      (GlobalAllocator.recycleBlocks (Collector.noteSweep g)).global.largeChunkList = .ok list) :
    ∃ chunks', LargeLive env chunks' (Collector.withChunkList
      (GlobalAllocator.recycleBlocks (Collector.noteSweep g)) list) := by
  obtain ⟨memory, block, free, recyclable, recycled⟩ := recycleBlocks_frame (Collector.noteSweep g)
  rw [recycled] at success ⊢
  obtain ⟨chunks', tiling, swept⟩ := large.ok.heap.tiling.sweep_ok fits success
  refine ⟨chunks', ?_, fun a member inLarge => ?_, large.finalizers⟩
  · have bounds : SameBounds g (Collector.withChunkList g list) := ⟨rfl, rfl, rfl, rfl, rfl⟩
    obtain ⟨heap, within, words, stopWord, room⟩ := bounds.largeOk large.ok tiling swept.subset
    exact ⟨⟨heap.tiling, heap.stop⟩, ⟨within.small, within.total, within.limit, within.start⟩, words,
      stopWord, room⟩
  · obtain ⟨old, isMarked⟩ := List.mem_filter.mp member
    obtain ⟨chunk, inList, object, allocated, size⟩ := large.live a old inLarge
    have inLarge' : g.global.inLargeHeap a.object = true := inLarge
    rw [Gc.isMarked, if_pos inLarge', object, Nat.add_sub_cancel] at isMarked
    obtain ⟨stays, kept⟩ := swept.kept chunk inList isMarked
    refine ⟨chunk, stays, object, ?_, ?_⟩
    · exact (congrArg Chunk.isAllocated kept).trans allocated
    · exact (congrArg (fun header => header.object.size) kept).trans size

end LargeLive

/-- The large heap is as it should be, as long as no sweep had to measure a long last chunk. -/
def Large (env : Env) (g : Gc) : Prop :=
  g.history.shortLimit = true ∨ ∃ chunks, LargeLive env chunks g

namespace Large
variable {collect : Gc → Result Gc} {self : Nat}

theorem congr (large : Large env g) (bounds : SameBounds g g')
    (list : g'.global.largeChunkList = g.global.largeChunkList)
    (live : g'.history.live.Sublist g.history.live)
    (flag : g.history.shortLimit = true → g'.history.shortLimit = true)
    (finalizers : g'.global.finalizers = g.global.finalizers) : Large env g' :=
  large.imp flag fun ⟨chunks, large⟩ =>
    ⟨chunks, large.congr bounds (list ▸ .refl _) live (Or.inr finalizers)⟩

theorem growSmall (large : Large env g) (success : GlobalAllocator.growSmall g = .ok g') :
    Large env g' := by
  rcases large with short | ⟨chunks, large⟩
  · exact Or.inl (((FlagsUp.refl _).growSmall success).shortLimit short)
  · exact Or.inr ⟨chunks, large.growSmall success⟩

theorem feeds_noCollect : Feeds (Large env) noCollect :=
  Guarantees.feeds_noCollect fun _ _ large grown => large.growSmall grown

theorem shift {item : Nat} (large : Large env g)
    (shift : GlobalAllocator.shiftRecyclable g = (item, g') ∨
      GlobalAllocator.shiftFree g = (item, g')) : Large env g' := by
  rcases shift with shift | shift
  · rw [← (Prod.mk.inj shift).2]
    exact large.congr ⟨rfl, rfl, rfl, rfl, rfl⟩ rfl (List.Sublist.refl _) id rfl
  · rw [← (Prod.mk.inj shift).2]
    exact large.congr ⟨rfl, rfl, rfl, rfl, rfl⟩ rfl (List.Sublist.refl _) id rfl

theorem initCursor (feeds : Feeds (Large env) collect) (large : Large env g)
    (success : LocalAllocator.initCursor collect self g = .ok g') : Large env g' := by
  obtain ⟨item, taken, took, placed⟩ := initCursor_cases success
  obtain ⟨-, before, holds, shifted⟩ := nextBlock_taken feeds large took
  have kept := holds.shift shifted
  rcases placed with ⟨-, rfl⟩ | ⟨-, hole, -, rfl⟩
  · exact kept.congr ⟨rfl, rfl, rfl, rfl, rfl⟩ rfl (List.Sublist.refl _) id rfl
  · exact kept.congr ⟨rfl, rfl, rfl, rfl, rfl⟩ rfl (List.Sublist.refl _) id rfl

theorem initOverflowCursor (feeds : Feeds (Large env) collect) (large : Large env g)
    (success : LocalAllocator.initOverflowCursor collect self g = .ok g') : Large env g' := by
  obtain ⟨item, taken, took, rfl⟩ := initOverflowCursor_ok success
  obtain ⟨-, before, holds, shifted⟩ := nextFreeBlock_taken feeds large took
  exact (holds.shift (Or.inr shifted)).congr ⟨rfl, rfl, rfl, rfl, rfl⟩ rfl (List.Sublist.refl _) id rfl

theorem reset (feeds : Feeds (Large env) collect) (large : Large env g)
    (success : LocalAllocator.reset collect self g = .ok g') : Large env g' := by
  rw [LocalAllocator.reset] at success
  obtain ⟨middle, first, second⟩ := bind_eq_ok.mp success
  exact (large.initCursor feeds first).initOverflowCursor feeds second

theorem collectOnce (large : Large env g) (success : Source.collectOnce env g = .ok g') :
    Large env g' := by
  rcases large with short | ⟨chunks, large⟩
  · exact Or.inl (((FlagsUp.refl _).collectOnce success).shortLimit short)
  rw [Source.collectOnce] at success
  obtain ⟨swept, collecting, rest⟩ := bind_eq_ok.mp success
  obtain ⟨last, resetting, done⟩ := bind_eq_ok.mp rest
  obtain ⟨list, rooted, marked, finalized, list', unmarking, rooting, marking, finalizing, sweeping,
    rfl⟩ := collect_phases collecting
  have final := (large.marked unmarking rooting marking).finalizeObjects finalizing
  have kept : Large env (Collector.withChunkList
      (GlobalAllocator.recycleBlocks (Collector.noteSweep finalized)) list') := by
    by_cases fits : (Collector.noteSweep finalized).history.shortLimit = false
    · exact Or.inr (final.sweep (Bool.or_eq_false_iff.mp fits).2 sweeping)
    · left
      obtain ⟨memory', block', free, recyclable, recycled⟩ :=
        recycleBlocks_frame (Collector.noteSweep finalized)
      rw [recycled]
      exact Bool.not_eq_false _ ▸ fits
  have reset' : Large env last := foldlM_keeps _ kept
    (fun _ _ _ _ large ran => large.reset feeds_noCollect ran) resetting
  rw [← Except.ok.inj done]
  exact reset'.congr ⟨rfl, rfl, rfl, rfl, rfl⟩ rfl (List.Sublist.refl _) id rfl

theorem feeds (env : Env) : Feeds (Large env) (Source.collectOnce env) :=
  ⟨fun _ _ large ran => large.collectOnce ran, fun _ _ large grown => large.growSmall grown⟩

end Large

/-! ## Growth -/

theorem HeapBounds.growLarge {smallMap largeMap increment : Nat}
    (heap : HeapBounds smallMap largeMap g.global)
    (success : GlobalAllocator.growLarge env increment g = .ok g') :
    HeapBounds smallMap largeMap g'.global := by
  obtain ⟨size, -, -, total, rfl⟩ := growLarge_ok heap.bounds success
  obtain ⟨⟨small, -, limit, start⟩, large, smallStart, smallStop, whole, largeStart, largeStop,
    disjoint⟩ := heap
  refine ⟨⟨small, ?_, limit, start⟩, ?_, smallStart, smallStop, whole, largeStart, ?_, disjoint⟩
  · rw [grownLarge]
    dsimp only
    omega
  · exact large.trans (Nat.le_add_right _ _)
  · rw [grownLarge]
    dsimp only
    omega

/-- What lies in a block does not lie in the large heap. -/
theorem HeapBounds.not_inLarge {smallMap largeMap : Nat} (heap : HeapBounds smallMap largeMap g.global)
    {a : Nat} (home : Block.from a ∈ g.global.blocks) : g.global.inLargeHeap a = false := by
  have within := heap.block_within home
  have spaces := heap.spaces
  rw [GlobalAllocator.inLargeHeap, Bool.and_eq_false_iff, decide_eq_false_iff_not,
    decide_eq_false_iff_not]
  simp only [Block.from, Block.stop, blockSize] at within
  omega

theorem inLarge_grownLarge {size : Nat} {a : Allocation} (large : InLarge g.global a) :
    InLarge (grownLarge g size).global a := by
  obtain ⟨inside, within⟩ := large
  rw [GlobalAllocator.inLargeHeap, Bool.and_eq_true, decide_eq_true_iff, decide_eq_true_iff] at inside
  refine ⟨?_, ?_⟩
  · rw [GlobalAllocator.inLargeHeap, Bool.and_eq_true, decide_eq_true_iff, decide_eq_true_iff,
      grownLarge]
    dsimp only
    omega
  · rw [grownLarge]
    dsimp only
    omega

theorem Stock.growLarge {setup : Setup} {slots : Slot → Prop} {increment : Nat}
    (stock : Stock setup slots g) (success : GlobalAllocator.growLarge env increment g = .ok g') :
    Stock setup slots g' := by
  obtain ⟨bounds, allocators, beyond, homes, apart, finalizers⟩ := stock.shape
  have bounds' := bounds.growLarge success
  obtain ⟨size, -, -, -, rfl⟩ := growLarge_ok bounds.bounds success
  exact stock.reshape ⟨bounds', allocators, beyond,
    fun a member => (homes a member).imp_right inLarge_grownLarge, apart, finalizers⟩ ⟨rfl, rfl⟩ rfl rfl
    (fun _ member _ => member) id ⟨rfl, rfl⟩ fun x hx => ⟨hx, .of_local rfl⟩

theorem LargeLive.growLarge {setup : Setup} {increment : Nat} (large : LargeLive env chunks g)
    (shape : HeapShape setup g) (success : GlobalAllocator.growLarge env increment g = .ok g') :
    LargeLive env (chunks ++ [g.global.largeHeapStop]) g' := by
  have ok := large.ok.growLarge success
  have bounds := shape.bounds.growLarge success
  obtain ⟨size, -, -, -, rfl⟩ := growLarge_ok shape.bounds.bounds success
  refine ⟨ok, fun a member inLarge => ?_, large.finalizers⟩
  rcases shape.homes a member with home | ⟨inside, -⟩
  · rw [bounds.not_inLarge home] at inLarge
    cases inLarge
  · obtain ⟨chunk, inList, object, allocated, sized⟩ := large.live a member inside
    have other : chunk ≠ g.global.largeHeapStop := by
      rintro rfl
      exact large.ok.heap.tiling.stop_not_mem inList
    obtain ⟨link, kept⟩ := grownLarge_chunk g size other
    refine ⟨chunk, List.mem_append_left _ inList, object, ?_, ?_⟩
    · exact (congrArg Chunk.isAllocated kept).trans allocated
    · exact (congrArg (fun header => header.object.size) kept).trans sized

/-! ## Allocation -/

/-- The object that `GlobalAllocator_tryAllocateLarge` returns. -/
def AllocatedFrom.newObject (g : Gc) (chunk : Nat) (list : ChunkList) : Allocation :=
  ⟨g.history.serials, chunk + chunkHeaderSize, (list.chunk chunk).object.size⟩

theorem LargeLive.allocated {size atomic chunk : Nat} {list : ChunkList}
    (large : LargeLive env chunks g) (member : chunk ∈ chunks) (word : size % wordSize = 0)
    (enough : sizeofObject ≤ sizeAdd size sizeofObject)
    (allocated : AllocatedFrom size atomic g chunk list g') :
    (∃ chunks', LargeLive env chunks' g') ∧
      InLarge g.global (AllocatedFrom.newObject g chunk list) ∧
      ∀ old ∈ g.history.live, InLarge g.global old →
        ShareNothing (AllocatedFrom.newObject g chunk list) old := by
  obtain ⟨chunks', served⟩ := allocated.served large.ok.heap member
  have ok := large.ok.served member word enough allocated served
  have tiling := large.ok.heap.tiling
  have extent : chunkStop g'.global.largeChunkList chunk = chunk + chunkHeaderSize +
      (list.chunk chunk).object.size := by
    rw [allocated.result, chunkStop]
    dsimp only [GlobalAllocator.incrementCounters]
    rw [store_same]
    rfl
  -- the object lies in the chunk it was cut from
  have within : chunkStop g'.global.largeChunkList chunk ≤ chunkStop g.global.largeChunkList chunk := by
    rcases served.remainder with same | ⟨rest, inList, here, -, -, ends⟩
    · exact same.le
    · rw [← here, ← ends]
      exact (Tiling.grows g'.global.largeChunkList [rest] rest (by simp)).le
  obtain ⟨low, high⟩ := tiling.inside member
  have header := enough.trans served.enough
  have servedSize : (g'.global.largeChunkList.chunk chunk).object.size =
      (list.chunk chunk).object.size := Nat.add_left_cancel extent
  rw [servedSize, sizeofObject] at header
  have inLarge : InLarge g.global (AllocatedFrom.newObject g chunk list) := by
    refine ⟨?_, ?_⟩
    · rw [GlobalAllocator.inLargeHeap, Bool.and_eq_true, decide_eq_true_iff, decide_eq_true_iff,
        AllocatedFrom.newObject]
      dsimp only
      omega
    · rw [AllocatedFrom.newObject]
      dsimp only
      omega
  refine ⟨⟨chunks', ok, fun a inLive inside => ?_, ?_⟩, inLarge, fun old inLive oldLarge => ?_⟩
  · rw [allocated.result] at inLive inside
    rcases List.mem_cons.mp inLive with rfl | old
    · exact ⟨chunk, served.kept chunk member, rfl, served.allocated.1, servedSize⟩
    · obtain ⟨c, inList, object, isAllocated, sized⟩ := large.live a old inside
      have different : c ≠ chunk := by
        rintro rfl
        rw [allocated.wasFree] at isAllocated
        cases isAllocated
      have kept := served.others c inList different
      exact ⟨c, served.kept c inList, object, (congrArg Chunk.isAllocated kept).trans isAllocated,
        (congrArg (fun header => header.object.size) kept).trans sized⟩
  · rw [allocated.result]
    exact large.finalizers
  · obtain ⟨c, inList, object, isAllocated, sized⟩ := large.live old inLive oldLarge.1
    have different : c ≠ chunk := by
      rintro rfl
      rw [allocated.wasFree] at isAllocated
      cases isAllocated
    have apart := tiling.apart inList member different
    have sizedC : chunkStop g.global.largeChunkList c = c + chunkHeaderSize + old.size := by
      rw [chunkStop, sized]
    rw [ShareNothing, AllocatedFrom.newObject]
    dsimp only
    omega

/-- A small object is no object of the large heap. -/
theorem LargeLive.fill {x : Slot} {new : Allocation} (large : LargeLive env chunks g)
    (filled : FilledSlot x new g g') (outside : g.global.inLargeHeap new.object = false) :
    LargeLive env chunks g' := by
  have bounds := SameBounds.of_space filled.space
  have chunksSame := filled.chunks
  refine ⟨bounds.largeOk large.ok (chunksSame ▸ large.ok.heap.tiling) fun _ member => member,
    fun a member inLarge => ?_, ?_⟩
  · rw [bounds.inLargeHeap] at inLarge
    rw [filled.live] at member
    rcases List.mem_cons.mp member with rfl | old
    · rw [outside] at inLarge
      cases inLarge
    · rw [chunksSame]
      exact large.live a old inLarge
  · rw [filled.finalizers]
    exact large.finalizers

/-- `GC_GlobalAllocator_deallocateLarge` frees the chunk of an object that is not live any more. -/
theorem LargeLive.freeLarge (large : LargeLive env chunks g) (chunk : Nat) :
    LargeLive env chunks (GlobalAllocator.freeLarge chunk g) := by
  have same : ∀ c, c ≠ chunk → (GlobalAllocator.freeLarge chunk g).global.largeChunkList.chunk c =
      g.global.largeChunkList.chunk c := fun c different => store_other _ _ _ _ different
  have bounds : SameBounds g (GlobalAllocator.freeLarge chunk g) := ⟨rfl, rfl, rfl, rfl, rfl⟩
  refine ⟨bounds.largeOk large.ok (large.ok.heap.tiling.store rfl rfl) fun _ member => member,
    fun a member inLarge => ?_, large.finalizers⟩
  obtain ⟨old, other⟩ := List.mem_filter.mp member
  obtain ⟨c, inList, object, allocated, sized⟩ := large.live a old inLarge
  have different : c ≠ chunk := by
    rintro rfl
    rw [object] at other
    simp at other
  have kept := same c different
  exact ⟨c, inList, object, (congrArg Chunk.isAllocated kept).trans allocated,
    (congrArg (fun header => header.object.size) kept).trans sized⟩

/-- An object of the large heap is added. -/
theorem Stock.allocated {setup : Setup} {slots : Slot → Prop} {size atomic chunk : Nat}
    {list : ChunkList} (stock : Stock setup slots g)
    (inLarge : InLarge g.global (AllocatedFrom.newObject g chunk list))
    (apart : ∀ old ∈ g.history.live, InLarge g.global old →
      ShareNothing (AllocatedFrom.newObject g chunk list) old)
    (allocated : AllocatedFrom size atomic g chunk list g') : Stock setup slots g' := by
  have shape := stock.shape
  have full := stock.walkable.full
  have result := allocated.result
  clear allocated
  have live : g'.history.live = AllocatedFrom.newObject g chunk list :: g.history.live := by
    rw [result]
    rfl
  generalize AllocatedFrom.newObject g chunk list = new at *
  have share : ∀ old ∈ g.history.live, ShareNothing new old := by
    intro old member
    rcases shape.homes old member with home | oldLarge
    · obtain ⟨layout, extent, intact⟩ := (full _ home).intact
      have within := intact.payload_within member rfl
      have beside := inLarge.apart shape.bounds home
      simp only [Block.start] at within
      rw [ShareNothing]
      omega
    · exact apart old member oldLarge
  have memory : g'.memory = g.memory := by rw [result]
  have headers : g'.block = g.block := by rw [result]
  have locals : g'.localAllocator = g.localAllocator := by rw [result]
  have sameSpace : space g'.global = space g.global := by
    rw [result]
    rfl
  refine stock.reshape ⟨shape.bounds.congr sameSpace, ?_, fun b outside => ?_, fun a member => ?_, ?_,
    ?_⟩ ⟨?_, ?_⟩ memory headers (fun a member inBlocks => ?_) ?_ ⟨?_, ?_⟩
    fun x hx => ⟨hx, .of_local (by rw [locals])⟩
  · rw [result]
    exact shape.allocators
  · rw [blocks_congr sameSpace] at outside
    rw [headers]
    exact shape.beyond b outside
  · rw [live] at member
    rw [blocks_congr sameSpace, inLarge_congr sameSpace]
    rcases List.mem_cons.mp member with rfl | old
    · exact Or.inr inLarge
    · exact shape.homes a old
  · rw [live]
    exact List.Pairwise.cons share shape.apart
  · rw [result]
    exact shape.finalizers
  · rw [result]
    rfl
  · rw [result]
    rfl
  · rw [live] at member
    rcases List.mem_cons.mp member with rfl | old
    · exact absurd rfl (inLarge.from_ne shape.bounds inBlocks)
    · exact old
  · rw [result]
    exact id
  · rw [result]
    rfl
  · rw [result]
    rfl

end Live

/-! ## The start -/

/-- The large heap starts as one free chunk. -/
theorem init_largeLive {env : Env} {g : Gc}
    {smallMap largeMap memoryLimit freeSpaceDivisor initialSize : Nat}
    (mapped : Mapped smallMap largeMap memoryLimit initialSize)
    (success : GlobalAllocator.init smallMap largeMap memoryLimit freeSpaceDivisor initialSize
      (fun _ => Block.init) (fun _ => ⟨null, 0, ⟨0, 0, 0⟩⟩) = .ok (g.block, g.global))
    (history : g.history = History.empty) : LargeLive env [g.global.largeHeapStart] g := by
  have ok := init_largeOk mapped success
  obtain ⟨enough, multiple, freeList, finalizers, -, created, global⟩ := init_ok success
  refine ⟨ok, fun a inLive => ?_, Or.inr ?_⟩
  · rw [history] at inLive
    exact absurd inLive List.not_mem_nil
  · rw [global]
    exact created

end ImmixGc.Guarantees
