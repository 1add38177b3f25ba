import ImmixGc.Guarantees.BlockSupply
import ImmixGc.Guarantees.ConservativeMarking

/-!
# The phases of a collection

`GC_Collector_collect` unmarks, registers roots, marks, runs finalizers, and sweeps. The
marking phase is a sequence of searches; what each kind of its steps keeps, the phase keeps.
-/
namespace ImmixGc.Guarantees
open Source Foundation

/-- A collection, phase by phase. -/
theorem collect_phases {env : Env} {g g' : Gc} (success : Collector.collect env g = .ok g') :
    ∃ list rooted marked finalized list',
      Collector.unmarkLargeFrom env.fuel (Collector.unmarkSmallObjects g).global.largeChunkList.first
        (Collector.unmarkSmallObjects g).global.largeChunkList = .ok list ∧
      Collector.callCollectCallback (Collector.withChunkList (Collector.unmarkSmallObjects g) list) =
        .ok rooted ∧
      Collector.mark env env.fuel rooted = .ok marked ∧
      Collector.finalizeObjects env { marked with global := marked.global.resetCounters } =
        .ok finalized ∧
      ChunkList.sweep env.fuel
        (GlobalAllocator.recycleBlocks (Collector.noteSweep finalized)).global.largeChunkList =
          .ok list' ∧
      g' = Collector.withChunkList (GlobalAllocator.recycleBlocks (Collector.noteSweep finalized))
        list' := by
  rw [Collector.collect] at success
  dsimp only at success
  obtain ⟨unmarked, unmarking, rest⟩ := bind_eq_ok.mp success
  obtain ⟨rooted, rooting, rest'⟩ := bind_eq_ok.mp rest
  obtain ⟨marked, marking, rest''⟩ := bind_eq_ok.mp rest'
  obtain ⟨finalized, finalizing, sweeping⟩ := bind_eq_ok.mp rest''
  rw [Collector.unmarkLargeObjects] at unmarking
  obtain ⟨list, cleared, done⟩ := bind_eq_ok.mp unmarking
  rw [Collector.sweep] at sweeping
  obtain ⟨list', chunks, swept⟩ := bind_eq_ok.mp sweeping
  rw [← Except.ok.inj done] at rooting
  exact ⟨list, rooted, marked, finalized, list', cleared, rooting, marking, finalizing, chunks,
    (Except.ok.inj swept).symm⟩

theorem unmarkSmallObjects_frame (g : Gc) : ∃ memory block,
    Collector.unmarkSmallObjects g = { g with memory := memory, block := block } := by
  rw [Collector.unmarkSmallObjects]
  generalize g.global.blocks = blocks
  induction blocks generalizing g with
  | nil => exact ⟨g.memory, g.block, rfl⟩
  | cons b rest ih =>
    obtain ⟨memory, block, same⟩ := ih (Collector.unmarkBlock g b)
    exact ⟨memory, block, same.trans rfl⟩

theorem recycleBlocks_frame (g : Gc) : ∃ memory block free recyclable,
    GlobalAllocator.recycleBlocks g = { g with
      memory := memory
      block := block
      global := { g.global with freeList := free, recyclableList := recyclable } } := by
  have run : ∀ (blocks : List Nat) (g : Gc), ∃ memory block free recyclable,
      blocks.foldl GlobalAllocator.recycleBlock g = { g with
        memory := memory
        block := block
        global := { g.global with freeList := free, recyclableList := recyclable } } := by
    intro blocks
    induction blocks with
    | nil => exact fun g => ⟨g.memory, g.block, g.global.freeList, g.global.recyclableList, rfl⟩
    | cons b rest ih =>
      intro g
      have one : ∃ memory block free recyclable, GlobalAllocator.recycleBlock g b = { g with
          memory := memory
          block := block
          global := { g.global with freeList := free, recyclableList := recyclable } } := by
        rw [GlobalAllocator.recycleBlock]
        split
        · exact ⟨_, _, _, _, rfl⟩
        · dsimp only
          split
          · exact ⟨_, _, _, _, rfl⟩
          · exact ⟨_, _, g.global.freeList, g.global.recyclableList, rfl⟩
      obtain ⟨memory, block, free, recyclable, step⟩ := one
      obtain ⟨memory', block', free', recyclable', others⟩ := ih (GlobalAllocator.recycleBlock g b)
      rw [List.foldl_cons, others, step]
      exact ⟨memory', block', free', recyclable', rfl⟩
  obtain ⟨memory, block, free, recyclable, swept⟩ := run g.global.blocks { g with
    global := { g.global with freeList := BlockList.clear, recyclableList := BlockList.clear } }
  exact ⟨memory, block, free, recyclable, swept⟩

/-- The steps of the marking phase keep an invariant. -/
structure MarkingKeeps (invariant : Gc → Prop) : Prop where
  chunks : ∀ g chunk, invariant g → (g.global.largeChunkList.chunk chunk).isAllocated = true →
    invariant (Collector.withChunkList g { g.global.largeChunkList with
      chunk := store g.global.largeChunkList.chunk chunk
        (g.global.largeChunkList.chunk chunk).mark })
  roots : ∀ g roots, invariant g →
    invariant { g with collector := { g.collector with roots := roots } }
  script : ∀ g script, invariant g → invariant { g with rootScript := script }
  find : ∀ g g' pointer, invariant g → g.global.inSmallHeap pointer = true →
    Collector.findAndMarkSmallObject pointer g = .ok g' → invariant g'

namespace MarkingKeeps
variable {invariant : Gc → Prop} {env : Env} {g g' : Gc}

theorem scanObject (keeps : MarkingKeeps invariant) (object size atomic : Nat)
    (start : invariant g) : invariant (Collector.scanObject g object size atomic) := by
  rw [Collector.scanObject]
  split
  · exact keeps.roots _ _ start
  · exact start

theorem markChunk (keeps : MarkingKeeps invariant) (chunk : Nat) (start : invariant g) :
    invariant (Collector.markChunk g chunk) := by
  rw [Collector.markChunk]
  split
  · next found => exact keeps.scanObject _ _ _ (keeps.chunks _ _ start found.2.1)
  · exact start

theorem markPointer (keeps : MarkingKeeps invariant) {pointer : Nat} (start : invariant g)
    (success : Collector.markPointer env pointer g = .ok g') : invariant g' := by
  rw [Collector.markPointer] at success
  split at success
  · next inside => exact keeps.find _ _ _ start inside success
  split at success
  · obtain ⟨chunk, -, done⟩ := bind_eq_ok.mp success
    exact Except.ok.inj done ▸ keeps.markChunk chunk start
  · exact Except.ok.inj success ▸ start

theorem scanWords (keeps : MarkingKeeps invariant) (count sp : Nat) (start : invariant g)
    (success : Collector.scanWords env count sp g = .ok g') : invariant g' := by
  induction count generalizing g sp with
  | zero => exact Except.ok.inj success ▸ start
  | succ count ih =>
    rw [Collector.scanWords] at success
    obtain ⟨next, here, rest⟩ := bind_eq_ok.mp success
    exact ih _ (keeps.markPointer start here) rest

theorem mark (keeps : MarkingKeeps invariant) (fuel : Nat) (start : invariant g)
    (success : Collector.mark env fuel g = .ok g') : invariant g' := by
  induction fuel generalizing g with
  | zero => cases success
  | succ fuel ih =>
    rw [Collector.mark] at success
    split at success
    · exact Except.ok.inj success ▸ start
    · next region rest _ =>
      obtain ⟨next, scanned, others⟩ := bind_eq_ok.mp success
      exact ih (keeps.scanWords _ _ (keeps.roots _ _ start) scanned) others

theorem addRoots (keeps : MarkingKeeps invariant) (regions : List Region) (start : invariant g)
    (success : regions.foldlM (fun g region => Collector.addRoots region g) g = .ok g') :
    invariant g' := by
  refine foldlM_keeps regions start (fun region _ before after start added => ?_) success
  rw [Collector.addRoots] at added
  obtain ⟨-, -, done⟩ := bind_eq_ok.mp added
  exact Except.ok.inj done ▸ keeps.roots _ _ start

theorem callCollectCallback (keeps : MarkingKeeps invariant) (start : invariant g)
    (success : Collector.callCollectCallback g = .ok g') : invariant g' := by
  rw [Collector.callCollectCallback] at success
  split at success
  · exact Except.ok.inj success ▸ start
  · exact keeps.addRoots _ (keeps.script _ _ start) success

end MarkingKeeps

/-! ## Finalizers -/

/-- The finalizers only write to the client's memory. -/
def StoresOnly (env : Env) : Prop := ∀ callback pointer action,
  action ∈ env.finalizer callback pointer → ∃ address value, action = .store address value

/-- A finalizer keeps what writes and allocations of the client keep. -/
theorem callFinalizer_keeps {env : Env} {invariant : Gc → Prop} {callback object : Nat} {g g' : Gc}
    (called : ∀ g, invariant g → invariant { g with history := g.history.call object callback })
    (writes : ∀ before after address value, invariant before →
      before.clientStore address value = .ok after → invariant after)
    (mallocs : StoresOnly env ∨ ∀ before after size atomic pointer, invariant before →
      mallocWithAtomic env noCollect size atomic before = .ok (pointer, after) → invariant after)
    (start : invariant g) (success : Collector.callFinalizer env callback object g = .ok g') :
    invariant g' := by
  rw [Collector.callFinalizer] at success
  refine foldlM_keeps _ (called g start) (fun action member before after holds ran => ?_) success
  cases action with
  | store address value => exact writes _ _ _ _ holds ran
  | malloc size atomic destination =>
    rw [Collector.runAction] at ran
    obtain ⟨⟨pointer, middle⟩, allocated, stored⟩ := bind_eq_ok.mp ran
    rcases mallocs with stores | allocates
    · obtain ⟨address, value, wrong⟩ := stores _ _ _ member
      cases wrong
    · exact writes _ _ _ _ (allocates _ _ _ _ _ holds allocated) stored

/-- A loop of `GC_Hash_deleteIf` keeps what its callback keeps. -/
theorem deleteIfLoop_keeps {σ : Type} {invariant : σ → Prop}
    {callback : Nat → Nat → σ → Result (Bool × σ)}
    (keeps : ∀ key value before after answer, invariant before →
      callback key value before = .ok (answer, after) → invariant after)
    (count index : Nat) (self : Hash) {before after : σ} {table : Hash} (start : invariant before)
    (success : Hash.deleteIfLoop callback count index self before = .ok (table, after)) :
    invariant after := by
  induction count generalizing index self before with
  | zero =>
    simp only [Hash.deleteIfLoop, Except.ok.injEq, Prod.mk.injEq] at success
    exact success.2 ▸ start
  | succ count ih =>
    rw [Hash.deleteIfLoop] at success
    split at success
    · obtain ⟨⟨answer, next⟩, called, rest⟩ := bind_eq_ok.mp success
      have kept := keeps _ _ _ _ _ start called
      dsimp only at rest
      split at rest
      · exact ih _ _ kept rest
      · exact ih _ _ kept rest
    · exact ih _ _ start success

/-- The finalizer phase keeps what finalizer calls and changes of the table keep. -/
theorem finalizeObjects_keeps {env : Env} {invariant : Gc → Prop} {g g' : Gc}
    (table : ∀ g finalizers, invariant g →
      invariant { g with global := { g.global with finalizers := finalizers } })
    (call : ∀ callback object before after, invariant before →
      Collector.callFinalizer env callback object before = .ok after → invariant after)
    (start : invariant g) (success : Collector.finalizeObjects env g = .ok g') : invariant g' := by
  rw [Collector.finalizeObjects] at success
  obtain ⟨⟨finalizers, after⟩, deleting, done⟩ := bind_eq_ok.mp success
  rw [Hash.deleteIf] at deleting
  obtain ⟨⟨kept, last⟩, looping, cleared⟩ := bind_eq_ok.mp deleting
  obtain ⟨cleaned, -, same⟩ := bind_eq_ok.mp cleared
  simp only [Except.ok.injEq, Prod.mk.injEq] at same
  obtain ⟨rfl, rfl⟩ := same
  rw [← Except.ok.inj done]
  refine table _ _ (deleteIfLoop_keeps (fun key value before after answer holds answered => ?_)
    _ _ _ start looping)
  rw [Collector.finalizeObjectCallback] at answered
  split at answered
  · obtain ⟨called, calling, result⟩ := bind_eq_ok.mp answered
    simp only [Except.ok.injEq, Prod.mk.injEq] at result
    exact result.2 ▸ call _ _ _ _ holds calling
  · simp only [Except.ok.injEq, Prod.mk.injEq] at answered
    exact answered.2 ▸ holds

/-! ## What a collection leaves of the counters -/

/-- The divisor is known, the heap has at least this size, and no bytes are counted since the
counter was reset. -/
structure Rested (wasReset : Prop) (divisor size : Nat) (g : Gc) : Prop where
  sized : Sized g.global
  divided : g.global.freeSpaceDivisor = divisor
  grown : size ≤ g.global.heapSize
  counter : wasReset → g.global.allocatedBytesSinceCollect = 0

namespace Rested
variable {env : Env} {wasReset : Prop} {divisor size : Nat} {g g' : Gc}

/-- Only five numbers matter. -/
theorem congr (rested : Rested wasReset divisor size g) (global : g'.global = { g.global with
      freeList := g'.global.freeList
      recyclableList := g'.global.recyclableList
      largeChunkList := g'.global.largeChunkList
      finalizers := g'.global.finalizers }) : Rested wasReset divisor size g' := by
  obtain ⟨⟨limit, within⟩, divided, grown, counter⟩ := rested
  generalize g'.global.freeList = free at global
  generalize g'.global.recyclableList = recyclable at global
  generalize g'.global.largeChunkList = list at global
  generalize g'.global.finalizers = finalizers at global
  constructor
  · rw [global]
    exact ⟨limit, within⟩
  · rw [global]
    exact divided
  · rw [global]
    exact grown
  · rw [global]
    exact counter

theorem growSmall (rested : Rested wasReset divisor size g)
    (success : GlobalAllocator.growSmall g = .ok g') : Rested wasReset divisor size g' := by
  obtain ⟨sized, larger⟩ := rested.sized.growSmall success
  refine ⟨sized, ?_, rested.grown.trans larger, ?_⟩
  · obtain ⟨increment, count, size, -, -, -, rfl⟩ := growSmall_pushes success
    exact rested.divided
  · obtain ⟨increment, count, size, -, -, -, rfl⟩ := growSmall_pushes success
    exact rested.counter

theorem feeds_noCollect : Feeds (Rested wasReset divisor size) noCollect :=
  Guarantees.feeds_noCollect fun _ _ rested grown => rested.growSmall grown

theorem initCursor {collect : Gc → Result Gc} {self : Nat}
    (feeds : Feeds (Rested wasReset divisor size) collect)
    (rested : Rested wasReset divisor size g)
    (success : LocalAllocator.initCursor collect self g = .ok g') :
    Rested wasReset divisor size g' := by
  obtain ⟨item, taken, took, placed⟩ := initCursor_cases success
  obtain ⟨-, before, holds, shifted⟩ := nextBlock_taken feeds rested took
  have kept : Rested wasReset divisor size taken := by
    rcases shifted with shift | shift
    · rw [← (Prod.mk.inj shift).2]
      exact holds.congr rfl
    · rw [← (Prod.mk.inj shift).2]
      exact holds.congr rfl
  rcases placed with ⟨-, rfl⟩ | ⟨-, hole, -, rfl⟩
  · exact kept.congr rfl
  · exact kept.congr rfl

theorem initOverflowCursor {collect : Gc → Result Gc} {self : Nat}
    (feeds : Feeds (Rested wasReset divisor size) collect)
    (rested : Rested wasReset divisor size g)
    (success : LocalAllocator.initOverflowCursor collect self g = .ok g') :
    Rested wasReset divisor size g' := by
  obtain ⟨item, taken, took, rfl⟩ := initOverflowCursor_ok success
  obtain ⟨-, before, holds, shift⟩ := nextFreeBlock_taken feeds rested took
  have kept : Rested wasReset divisor size taken := by
    rw [← (Prod.mk.inj shift).2]
    exact holds.congr rfl
  exact kept.congr rfl

theorem resets (todo : List Nat) (rested : Rested wasReset divisor size g)
    (success : todo.foldlM (fun g self => LocalAllocator.reset noCollect self g) g = .ok g') :
    Rested wasReset divisor size g' := by
  refine foldlM_keeps todo rested (fun self _ before after rested reset => ?_) success
  rw [LocalAllocator.reset] at reset
  obtain ⟨middle, first, second⟩ := bind_eq_ok.mp reset
  exact (rested.initCursor feeds_noCollect first).initOverflowCursor feeds_noCollect second

theorem markingKeeps : MarkingKeeps (Rested wasReset divisor size) where
  chunks _ _ rested _ := rested.congr rfl
  roots _ _ rested := rested.congr rfl
  script _ _ rested := rested.congr rfl
  find g g' pointer rested _ success := by
    rcases findAndMark_cases success with rfl | ⟨i, object, -, -, rfl⟩
    · exact rested
    · rw [Collector.scanObject]
      split <;> exact rested.congr rfl

theorem callFinalizer {callback object : Nat} (stores : StoresOnly env)
    (rested : Rested wasReset divisor size g)
    (success : Collector.callFinalizer env callback object g = .ok g') :
    Rested wasReset divisor size g' := by
  refine callFinalizer_keeps (fun _ rested => rested.congr rfl)
    (fun before after address value rested stored => ?_) (Or.inl stores) rested success
  rw [Gc.clientStore] at stored
  split at stored
  · exact Except.ok.inj stored ▸ rested.congr rfl
  · cases stored

/-- A collection without allocating finalizers leaves the counter at 0. -/
theorem collectOnce (stores : StoresOnly env) (rested : Rested wasReset divisor size g)
    (success : Source.collectOnce env g = .ok g') : Rested True divisor size g' := by
  rw [Source.collectOnce] at success
  obtain ⟨swept, collecting, rest⟩ := bind_eq_ok.mp success
  obtain ⟨last, resetting, done⟩ := bind_eq_ok.mp rest
  obtain ⟨list, rooted, marked, finalized, list', -, rooting, marking, finalizing, -, rfl⟩ :=
    collect_phases collecting
  obtain ⟨memory, block, unmarked⟩ := unmarkSmallObjects_frame (setCollecting g true)
  rw [unmarked] at rooting
  have start : Rested wasReset divisor size (Collector.withChunkList
      { setCollecting g true with memory := memory, block := block } list) := rested.congr rfl
  have rooted' := markingKeeps.callCollectCallback start rooting
  have marked' := markingKeeps.mark _ rooted' marking
  have zero : Rested True divisor size { marked with global := marked.global.resetCounters } :=
    ⟨⟨marked'.sized.limit, marked'.sized.within⟩, marked'.divided, marked'.grown, fun _ => rfl⟩
  have finalized' : Rested True divisor size finalized :=
    finalizeObjects_keeps (fun _ _ rested => rested.congr rfl)
      (fun _ _ _ _ rested called => rested.callFinalizer stores called) zero finalizing
  obtain ⟨memory', block', free, recyclable, recycled⟩ :=
    recycleBlocks_frame (Collector.noteSweep finalized)
  have swept' : Rested True divisor size (Collector.withChunkList
      (GlobalAllocator.recycleBlocks (Collector.noteSweep finalized)) list') := by
    rw [recycled]
    exact finalized'.congr rfl
  exact Except.ok.inj done ▸ (swept'.resets _ resetting).congr rfl

end Rested

end ImmixGc.Guarantees
