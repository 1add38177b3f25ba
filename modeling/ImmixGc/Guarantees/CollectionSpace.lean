import ImmixGc.Guarantees.CollectionHistory

/-!
# What the steps keep of the extents of the heaps

Where the heaps lie and how the large one is cut into chunks changes only when a heap grows, a
chunk is handed out or unmarked chunks are merged. A collection merges once, at its end, and
hands out chunks only to its finalizers.
-/
namespace ImmixGc.Guarantees
open Source Foundation

/-- Where the heaps lie, and how far they may grow. -/
structure Space where
  smallStart : Nat
  smallStop : Nat
  smallSize : Nat
  largeStart : Nat
  largeStop : Nat
  largeSize : Nat
  limit : Nat

def space (global : GlobalAllocator) : Space :=
  ⟨global.smallHeapStart, global.smallHeapStop, global.smallHeapSize, global.largeHeapStart,
    global.largeHeapStop, global.largeHeapSize, global.memoryLimit⟩

/-- At most the mark bits of the chunks differ. -/
structure SameChunks (list list' : ChunkList) : Prop where
  next : ∀ c, (list'.chunk c).next = (list.chunk c).next
  size : ∀ c, (list'.chunk c).object.size = (list.chunk c).object.size
  allocated : ∀ c, (list'.chunk c).isAllocated = (list.chunk c).isAllocated
  ends : list'.first = list.first ∧ list'.last = list.last ∧ list'.size = list.size

namespace SameChunks
variable {list list' list'' : ChunkList}

theorem refl (list : ChunkList) : SameChunks list list :=
  ⟨fun _ => rfl, fun _ => rfl, fun _ => rfl, rfl, rfl, rfl⟩

theorem trans (first : SameChunks list list') (second : SameChunks list' list'') :
    SameChunks list list'' :=
  ⟨fun c => (second.next c).trans (first.next c), fun c => (second.size c).trans (first.size c),
    fun c => (second.allocated c).trans (first.allocated c), second.ends.1.trans first.ends.1,
    second.ends.2.1.trans first.ends.2.1, second.ends.2.2.trans first.ends.2.2⟩

theorem symm (same : SameChunks list list') : SameChunks list' list :=
  ⟨fun c => (same.next c).symm, fun c => (same.size c).symm, fun c => (same.allocated c).symm,
    same.ends.1.symm, same.ends.2.1.symm, same.ends.2.2.symm⟩

/-- Writing the mark bit of one chunk. -/
theorem setMarked (list : ChunkList) (chunk value : Nat) :
    SameChunks list { list with
      chunk := store list.chunk chunk ((list.chunk chunk).setMarked value) } := by
  have same : ∀ c, ∃ marked, store list.chunk chunk ((list.chunk chunk).setMarked value) c =
      (list.chunk c).setMarked marked := by
    intro c
    rw [store_apply]
    split
    · next here => exact ⟨value, by rw [here]⟩
    · exact ⟨(list.chunk c).object.marked, rfl⟩
  refine ⟨fun c => ?_, fun c => ?_, fun c => ?_, rfl, rfl, rfl⟩
  · obtain ⟨marked, eq⟩ := same c
    exact (congrArg Chunk.next eq :)
  · obtain ⟨marked, eq⟩ := same c
    exact (congrArg (fun header => header.object.size) eq :)
  · obtain ⟨marked, eq⟩ := same c
    exact (congrArg Chunk.isAllocated eq :)

/-- `Collector_unmarkLargeObjects`. -/
theorem unmarkLarge (fuel chunk : Nat)
    (success : Collector.unmarkLargeFrom fuel chunk list = .ok list') : SameChunks list list' := by
  induction fuel generalizing chunk list with
  | zero => cases success
  | succ fuel ih =>
    rw [Collector.unmarkLargeFrom] at success
    split at success
    · exact Except.ok.inj success ▸ refl list
    · exact (setMarked list chunk 0).trans (ih _ success)

theorem tiling {start stop : Nat} {chunks : List Nat} (same : SameChunks list list')
    (tiling : Tiling list start stop chunks) : Tiling list' start stop chunks :=
  tiling.congr (fun c _ => same.next c) (fun c _ => same.size c) same.ends.1 same.ends.2.1
    same.ends.2.2

end SameChunks

theorem SameBounds.of_space {g g' : Gc} (same : space g'.global = space g.global) :
    SameBounds g g' := by
  simp only [space, Space.mk.injEq] at same
  obtain ⟨-, -, small, start, stop, large, limit⟩ := same
  exact ⟨start, stop, large, small, limit⟩

/-- What an invariant of the extents needs while local allocators take blocks. -/
structure BlocksKeep (invariant : Gc → Prop) : Prop where
  congr : ∀ before after, invariant before → space after.global = space before.global →
    SameChunks before.global.largeChunkList after.global.largeChunkList →
    after.localAllocators = before.localAllocators → invariant after
  growSmall : ∀ before after, invariant before → GlobalAllocator.growSmall before = .ok after →
    invariant after

/-- What it needs over a collection: the sizes that may be requested, and the chunk lists that
may be swept. -/
structure SpaceKeeps (env : Env) (requested : Nat → Prop) (swept : ChunkList → Prop)
    (invariant : Gc → Prop) : Prop extends BlocksKeep invariant where
  growLarge : ∀ before after increment, invariant before →
    GlobalAllocator.growLarge env increment before = .ok after → invariant after
  allocate : ∀ before after size atomic pointer, invariant before → requested size →
    GlobalAllocator.tryAllocateLarge env (roundToNextMultiple size wordSize) atomic before =
      .ok (pointer, after) → invariant after
  sweep : ∀ before list, invariant before → swept before.global.largeChunkList →
    ChunkList.sweep env.fuel before.global.largeChunkList = .ok list →
    invariant (Collector.withChunkList before list)

/-- A collection up to its sweep. -/
def beforeSweep (env : Env) (g : Gc) : Result Gc := do
  let g := Collector.unmarkSmallObjects (setCollecting g true)
  let g ← Collector.unmarkLargeObjects env g
  let g ← Collector.callCollectCallback g
  let g ← Collector.mark env env.fuel g
  Collector.finalizeObjects env { g with global := g.global.resetCounters }

/-- The calls of finalizers between two states: header and callback. -/
def finalizerCalls (g g' : Gc) : List (Nat × Nat) :=
  g'.history.finalizerCalls.drop g.history.finalizerCalls.length

section Calls
variable {g g' g'' : Gc}

/-- What was called so far was called before anything later. -/
theorem finalizerCalls_until (first : FlagsUp g.history g'.history)
    (second : FlagsUp g'.history g''.history) : finalizerCalls g g' <+: finalizerCalls g g'' := by
  obtain ⟨later, log⟩ := second.calls
  refine ⟨later, ?_⟩
  rw [finalizerCalls, finalizerCalls, ← log, List.drop_append_of_le_length first.calls.length_le]

/-- What was called later was called after what came before. -/
theorem finalizerCalls_since (first : FlagsUp g.history g'.history) (g'' : Gc) :
    finalizerCalls g' g'' <:+ finalizerCalls g g'' := by
  obtain ⟨middle, log⟩ := first.calls
  rw [finalizerCalls, finalizerCalls, ← log, List.length_append, ← List.drop_drop]
  exact List.drop_suffix _ _

/-- The calls since `g` are those before a finalizer ran, its own, and any later ones. -/
theorem finalizerCalls_run {env : Env} {callback object : Nat} (up : FlagsUp g.history g'.history)
    (success : Collector.callFinalizer env callback object g' = .ok g'') :
    finalizerCalls g g' ++ [(object, callback)] <+: finalizerCalls g g'' := by
  obtain ⟨later, log⟩ := (FlagsUp.finalizerRun success).calls
  refine ⟨later, ?_⟩
  rw [finalizerCalls, finalizerCalls, ← log, History.call, List.append_assoc, List.append_assoc,
    List.drop_append_of_le_length up.calls.length_le]

end Calls

/-- The finalizers that were called request such sizes only. -/
def CallsRequest (env : Env) (requested : Nat → Prop) (calls : List (Nat × Nat)) : Prop :=
  ∀ call ∈ calls, ∀ size atomic destination,
    .malloc size atomic destination ∈ env.finalizer call.2 (Object.mutatorAddress call.1) →
      requested size

/-- The finalizers that a collection from `g` calls request such sizes only. -/
def FinalizersRequest (env : Env) (requested : Nat → Prop) (g : Gc) : Prop :=
  ∀ last, beforeSweep env g = .ok last → CallsRequest env requested (finalizerCalls g last)

/-- A collection from `g` sweeps such a chunk list. -/
def SweepsList (env : Env) (swept : ChunkList → Prop) (g : Gc) : Prop :=
  ∀ last, beforeSweep env g = .ok last → swept last.global.largeChunkList

/-- Both of a collection from `g`. -/
structure CollectionAdmits (env : Env) (requested : Nat → Prop) (swept : ChunkList → Prop) (g : Gc) :
    Prop where
  list : SweepsList env swept g
  requests : FinalizersRequest env requested g

/-- The collection from `g` does not measure a last chunk of 2^31 bytes or more, and no finalizer
it calls requests so much that a header wraps. -/
abbrev CollectionFits (env : Env) (g : Gc) : Prop :=
  CollectionAdmits env (fun size => size ≤ 2 ^ 64 - 24)
    (fun list => Collector.shortLimit list = false) g

/-- A collection without finalizers, and with a list that ends short of 2^31 bytes. -/
theorem CollectionFits.of_ends {env : Env} {g : Gc}
    (ends : (beforeSweep env g).map (fun last =>
      (Collector.shortLimit last.global.largeChunkList, finalizerCalls g last)) = .ok (false, [])) :
    CollectionFits env g := by
  refine ⟨fun last collecting => ?_, fun last collecting call member => ?_⟩
  · rw [collecting] at ends
    exact (Prod.mk.inj (Except.ok.inj ends)).1
  · rw [collecting] at ends
    rw [(Prod.mk.inj (Except.ok.inj ends)).2] at member
    exact absurd member List.not_mem_nil

/-- `GC_collect_once`, cut at its sweep. -/
theorem collectOnce_eq (env : Env) (g : Gc) : Source.collectOnce env g = (do
    let g ← beforeSweep env g
    let g ← Collector.sweep env g
    let g ← g.localAllocators.foldlM (fun g self => LocalAllocator.reset noCollect self g) g
    .ok (setCollecting g false)) := by
  simp only [Source.collectOnce, Collector.collect, beforeSweep, bind_assoc]

namespace BlocksKeep
variable {invariant : Gc → Prop} {self : Nat} {g g' : Gc}

/-- Neither an extent nor a chunk changed. -/
theorem frame (keeps : BlocksKeep invariant) (holds : invariant g)
    (same : space g'.global = space g.global)
    (list : g'.global.largeChunkList = g.global.largeChunkList)
    (allocators : g'.localAllocators = g.localAllocators) : invariant g' :=
  keeps.congr g g' holds same (list ▸ .refl _) allocators

theorem feeds (keeps : BlocksKeep invariant) : Feeds invariant noCollect :=
  feeds_noCollect keeps.growSmall

theorem shift {item : Nat} (keeps : BlocksKeep invariant) (holds : invariant g)
    (shift : GlobalAllocator.shiftRecyclable g = (item, g') ∨
      GlobalAllocator.shiftFree g = (item, g')) : invariant g' := by
  rcases shift with shift | shift
  · rw [← (Prod.mk.inj shift).2]
    exact keeps.frame holds rfl rfl rfl
  · rw [← (Prod.mk.inj shift).2]
    exact keeps.frame holds rfl rfl rfl

theorem initCursor (keeps : BlocksKeep invariant) (holds : invariant g)
    (success : LocalAllocator.initCursor noCollect self g = .ok g') : invariant g' := by
  obtain ⟨item, taken, took, placed⟩ := initCursor_cases success
  obtain ⟨-, before, held, shifted⟩ := nextBlock_taken keeps.feeds holds took
  have kept := keeps.shift held shifted
  rcases placed with ⟨-, rfl⟩ | ⟨-, hole, -, rfl⟩
  · exact keeps.frame kept rfl rfl rfl
  · exact keeps.frame kept rfl rfl rfl

theorem initOverflowCursor (keeps : BlocksKeep invariant) (holds : invariant g)
    (success : LocalAllocator.initOverflowCursor noCollect self g = .ok g') : invariant g' := by
  obtain ⟨item, taken, took, rfl⟩ := initOverflowCursor_ok success
  obtain ⟨-, before, held, shifted⟩ := nextFreeBlock_taken keeps.feeds holds took
  exact keeps.frame (keeps.shift held (Or.inr shifted)) rfl rfl rfl

theorem resets (keeps : BlocksKeep invariant) (todo : List Nat)
    (holds : invariant g)
    (success : todo.foldlM (fun g self => LocalAllocator.reset noCollect self g) g = .ok g') :
    invariant g' := by
  refine foldlM_keeps todo holds (fun self _ before after holds reset => ?_) success
  rw [LocalAllocator.reset] at reset
  obtain ⟨middle, first, second⟩ := bind_eq_ok.mp reset
  exact keeps.initOverflowCursor (keeps.initCursor holds first) second

/-- The sweep, and the resets after it. -/
theorem sweepAndReset {env : Env} (keeps : BlocksKeep invariant)
    (swept : ∀ before list, space before.global = space g.global →
      before.global.largeChunkList = g.global.largeChunkList →
      before.localAllocators = g.localAllocators →
      ChunkList.sweep env.fuel g.global.largeChunkList = .ok list →
      invariant (Collector.withChunkList before list))
    (success : (do
      let g ← Collector.sweep env g
      let g ← g.localAllocators.foldlM (fun g self => LocalAllocator.reset noCollect self g) g
      .ok (setCollecting g false)) = .ok g') : invariant g' := by
  obtain ⟨cleared, sweeping, rest⟩ := bind_eq_ok.mp success
  obtain ⟨reset, resetting, done⟩ := bind_eq_ok.mp rest
  obtain ⟨memory, block, free, recyclable, recycled⟩ := recycleBlocks_frame (Collector.noteSweep g)
  rw [Collector.sweep] at sweeping
  obtain ⟨list, merged, done'⟩ := bind_eq_ok.mp sweeping
  rw [recycled] at merged done'
  have kept := swept { Collector.noteSweep g with
      memory := memory
      block := block
      global := { (Collector.noteSweep g).global with
        freeList := free, recyclableList := recyclable } } list rfl rfl rfl merged
  rw [Except.ok.inj done'] at kept
  exact Except.ok.inj done ▸ keeps.frame (keeps.resets _ kept resetting) rfl rfl rfl

end BlocksKeep

namespace SpaceKeeps
variable {env : Env} {requested : Nat → Prop} {swept : ChunkList → Prop} {invariant : Gc → Prop}
  {self : Nat} {g g' start : Gc}

theorem bumped {rsize object : Nat} (keeps : SpaceKeeps env requested swept invariant)
    (holds : invariant g) (bumped : Bumped self rsize g object g') : invariant g' := by
  cases bumped with
  | main room bump =>
    obtain ⟨header, -, rfl⟩ := bump_ok bump
    exact keeps.frame holds rfl rfl rfl
  | overflow room bump =>
    obtain ⟨header, -, rfl⟩ := bump_ok bump
    exact keeps.frame holds rfl rfl rfl

theorem allocationKeeps (keeps : SpaceKeeps env requested swept invariant)
    (self size rsize atomic : Nat) :
    AllocationKeeps invariant noCollect self size rsize atomic where
  block _ _ holds success := keeps.initCursor holds success
  overflow _ _ holds success := keeps.initOverflowCursor holds success
  hole before holds some := by
    rw [LocalAllocator.findNextHole, if_pos some]
    exact keeps.frame holds rfl rfl rfl
  object _ _ _ holds bumped _ := keeps.frame (keeps.bumped holds bumped) rfl rfl rfl
  nowhere _ _ holds bumped := keeps.bumped holds bumped

theorem mallocWithAtomic {size atomic pointer : Nat}
    (keeps : SpaceKeeps env requested swept invariant) (holds : invariant g)
    (admitted : requested size)
    (success : Source.mallocWithAtomic env noCollect size atomic g = .ok (pointer, g')) :
    invariant g' := by
  rw [Source.mallocWithAtomic] at success
  split at success
  · rw [LocalAllocator.allocateSmall] at success
    obtain ⟨-, -, rest⟩ := bind_eq_ok.mp success
    exact allocateSmallLoop_keeps (keeps.allocationKeeps _ _ _ _) _ holds rest
  · exact allocateLarge_induct invariant holds (fun _ _ _ ran => by cases ran)
      (fun _ _ _ holds tried => keeps.allocate _ _ _ _ _ holds admitted tried)
      (fun _ _ _ holds grown => keeps.growLarge _ _ _ holds grown) success

theorem clientStore {address value : Nat} (keeps : SpaceKeeps env requested swept invariant)
    (holds : invariant g) (success : g.clientStore address value = .ok g') : invariant g' := by
  rw [Gc.clientStore] at success
  split at success
  · exact Except.ok.inj success ▸ keeps.frame holds rfl rfl rfl
  · cases success

theorem callFinalizer {callback object : Nat} (keeps : SpaceKeeps env requested swept invariant)
    (holds : invariant g) (requests : CallsRequest env requested [(object, callback)])
    (success : Collector.callFinalizer env callback object g = .ok g') : invariant g' := by
  have noted : invariant { g with history := g.history.call object callback } :=
    keeps.frame holds rfl rfl rfl
  rw [Collector.callFinalizer] at success
  refine foldlM_keeps _ noted (fun action member before after holds ran => ?_) success
  cases action with
  | store address value => exact keeps.clientStore holds ran
  | malloc size atomic destination =>
    rw [Collector.runAction] at ran
    obtain ⟨⟨pointer, middle⟩, allocated, stored⟩ := bind_eq_ok.mp ran
    have admitted := requests _ List.mem_cons_self _ _ _ member
    exact keeps.clientStore (keeps.mallocWithAtomic holds admitted allocated) stored

/-- The finalizer phase: an invariant is kept as long as the requests so far were admitted. -/
theorem finalizeObjects (keeps : SpaceKeeps env requested swept invariant) (holds : invariant g)
    (up : FlagsUp start.history g.history)
    (success : Collector.finalizeObjects env g = .ok g')
    (requests : CallsRequest env requested (finalizerCalls start g')) : invariant g' := by
  refine (@finalizeObjects_keeps env (fun g => FlagsUp start.history g.history ∧
    (CallsRequest env requested (finalizerCalls start g) → invariant g)) _ _ ?_ ?_
    ⟨up, fun _ => holds⟩ success).2 requests
  · exact fun g table ⟨up, holds⟩ => ⟨up, fun requests => keeps.frame (holds requests) rfl rfl rfl⟩
  · intro callback object before after ⟨up, holds⟩ called
    refine ⟨up.callFinalizer called, fun requests => ?_⟩
    have within := (finalizerCalls_run up called).subset
    have earlier : CallsRequest env requested (finalizerCalls start before) := fun call member =>
      requests call (within (List.mem_append_left _ member))
    have own : CallsRequest env requested [(object, callback)] := fun call member =>
      requests call (within (List.mem_append_right _ member))
    exact keeps.callFinalizer (holds earlier) own called

theorem markingKeeps (keeps : SpaceKeeps env requested swept invariant) : MarkingKeeps invariant where
  chunks g chunk holds _ := keeps.congr _ _ holds rfl (.setMarked _ chunk 1) rfl
  roots _ _ holds := keeps.frame holds rfl rfl rfl
  script _ _ holds := keeps.frame holds rfl rfl rfl
  find g g' pointer holds _ success := by
    rcases findAndMark_cases success with rfl | ⟨i, object, -, -, rfl⟩
    · exact holds
    · rw [Collector.scanObject]
      split <;> exact keeps.frame holds rfl rfl rfl

theorem beforeSweep (keeps : SpaceKeeps env requested swept invariant) (holds : invariant g)
    (success : Guarantees.beforeSweep env g = .ok g')
    (requests : CallsRequest env requested (finalizerCalls g g')) : invariant g' := by
  rw [Guarantees.beforeSweep] at success
  obtain ⟨memory, block, unmarked⟩ := unmarkSmallObjects_frame (setCollecting g true)
  rw [unmarked] at success
  obtain ⟨cleared, unmarking, rest⟩ := bind_eq_ok.mp success
  obtain ⟨rooted, rooting, rest'⟩ := bind_eq_ok.mp rest
  obtain ⟨marked, marking, finalizing⟩ := bind_eq_ok.mp rest'
  rw [Collector.unmarkLargeObjects] at unmarking
  obtain ⟨list, unmarkedLarge, done⟩ := bind_eq_ok.mp unmarking
  rw [← Except.ok.inj done] at rooting
  have start : invariant (Collector.withChunkList
      { setCollecting g true with memory := memory, block := block } list) :=
    keeps.congr _ _ holds rfl (.unmarkLarge _ _ unmarkedLarge) rfl
  have marked' := keeps.markingKeeps.mark _ (keeps.markingKeeps.callCollectCallback start rooting)
    marking
  have here : FlagsAbove g.history (Collector.withChunkList
      { setCollecting g true with memory := memory, block := block } list) := .refl _
  have up : FlagsAbove g.history marked := FlagsUp.markingKeeps.mark _
    (FlagsUp.markingKeeps.callCollectCallback here rooting) marking
  have reset : invariant { marked with global := marked.global.resetCounters } :=
    keeps.frame marked' rfl rfl rfl
  exact keeps.finalizeObjects reset up finalizing requests

/-- A collection whose sweep and requests are admitted. -/
theorem collectOnce (keeps : SpaceKeeps env requested swept invariant) (holds : invariant g)
    (admits : CollectionAdmits env requested swept g)
    (success : Source.collectOnce env g = .ok g') : invariant g' := by
  rw [collectOnce_eq] at success
  obtain ⟨last, collecting, finishing⟩ := bind_eq_ok.mp success
  have list := admits.list last collecting
  have final := keeps.beforeSweep holds collecting (admits.requests last collecting)
  refine keeps.sweepAndReset (fun before list' same chunks allocators merged => ?_) finishing
  have ready := keeps.frame final same chunks allocators
  rw [← chunks] at list merged
  exact keeps.sweep _ _ ready list merged

end SpaceKeeps

/-! ## A collection that cannot measure its last chunk -/

/-- The chunk list does not tile the large heap. -/
def Untiled (g : Gc) : Prop :=
  ∀ chunks, ¬ Tiling g.global.largeChunkList g.global.largeHeapStart g.global.largeHeapStop chunks

theorem Untiled.blocksKeep : BlocksKeep Untiled where
  congr before after untiled same list _ chunks tiling := by
    simp only [space, Space.mk.injEq] at same
    rw [same.2.2.2.1, same.2.2.2.2.1] at tiling
    exact untiled chunks (list.symm.tiling tiling)
  growSmall before after untiled grown := by
    obtain ⟨increment, count, size, -, -, -, rfl⟩ := growSmall_pushes grown
    exact untiled

/-- A collection that merges up to a last chunk of 2^31 bytes or more leaves a list that does not
tile the heap. -/
theorem collectOnce_untiled {env : Env} {g last g' : Gc} {chunks : List Nat}
    (collecting : beforeSweep env g = .ok last) (ok : LargeOk last.global chunks)
    (long : Collector.shortLimit last.global.largeChunkList = true)
    (success : Source.collectOnce env g = .ok g') : Untiled g' := by
  rw [collectOnce_eq, collecting, ok_bind] at success
  refine Untiled.blocksKeep.sweepAndReset (fun before list same _ _ merged chunks' tiling => ?_) success
  simp only [space, Space.mk.injEq] at same
  have heap : last.global.largeHeapStop < last.global.largeHeapStart + 2 ^ 63 := by
    have := ok.heap.stop
    have := ok.bounds.total
    have := ok.bounds.limit
    omega
  refine ok.heap.tiling.sweep_breaks heap long merged (?_ : Tiling _ _ _ chunks')
  rw [← same.2.2.2.1, ← same.2.2.2.2.1]
  exact tiling

end ImmixGc.Guarantees
