import ImmixGc.Guarantees.CollectionPhases

/-!
# What the history never takes back

Allocations, collections and finalizers set flags, give out serial numbers and call finalizers.
Whatever the history holds of these before a step, it holds after the step.
-/
namespace ImmixGc.Guarantees
open Source Foundation

section Steps
variable {g g' : Gc}

theorem shift_history {item : Nat} (shift : GlobalAllocator.shiftRecyclable g = (item, g') ∨
    GlobalAllocator.shiftFree g = (item, g')) : g'.history = g.history := by
  rcases shift with shift | shift
  · rw [← (Prod.mk.inj shift).2]
  · rw [← (Prod.mk.inj shift).2]

/-- The flags that are set in `h` are set in `h'`, and `h'` has given out at least as many
serial numbers and called the same finalizers before any others. -/
structure FlagsUp (h h' : History) : Prop where
  staleNext : h.staleNext = true → h'.staleNext = true
  shortLimit : h.shortLimit = true → h'.shortLimit = true
  holeInObject : h.holeInObject = true → h'.holeInObject = true
  serials : h.serials ≤ h'.serials
  calls : h.finalizerCalls <+: h'.finalizerCalls

/-- The flags of `h` are set in state `g`. -/
abbrev FlagsAbove (h : History) (g : Gc) : Prop := FlagsUp h g.history

namespace FlagsUp
variable {h : History} {env : Env} {collect : Gc → Result Gc} {self : Nat}

theorem refl (h : History) : FlagsUp h h := ⟨id, id, id, Nat.le_refl _, List.prefix_rfl⟩

theorem trans {h' h'' : History} (first : FlagsUp h h') (second : FlagsUp h' h'') : FlagsUp h h'' :=
  ⟨second.staleNext ∘ first.staleNext, second.shortLimit ∘ first.shortLimit,
    second.holeInObject ∘ first.holeInObject, first.serials.trans second.serials,
    first.calls.trans second.calls⟩

theorem congr (up : FlagsUp h g.history) (same : g'.history = g.history) : FlagsUp h g'.history :=
  same ▸ up

/-- A call of a finalizer is noted down. -/
theorem call (h : History) (object callback : Nat) : FlagsUp h (h.call object callback) :=
  ⟨id, id, id, Nat.le_refl _, List.prefix_append _ _⟩

theorem growSmall (up : FlagsUp h g.history) (success : GlobalAllocator.growSmall g = .ok g') :
    FlagsUp h g'.history := by
  obtain ⟨increment, count, size, -, -, -, rfl⟩ := growSmall_pushes success
  exact up

theorem feeds_noCollect : Feeds (FlagsAbove h) noCollect :=
  Guarantees.feeds_noCollect fun _ _ up grown => up.growSmall grown

theorem initCursor (feeds : Feeds (FlagsAbove h) collect) (up : FlagsUp h g.history)
    (success : LocalAllocator.initCursor collect self g = .ok g') : FlagsUp h g'.history := by
  obtain ⟨item, taken, took, placed⟩ := initCursor_cases success
  obtain ⟨-, before, holds, shifted⟩ := nextBlock_taken feeds up took
  have kept : FlagsUp h taken.history := holds.congr (shift_history shifted)
  rcases placed with ⟨-, rfl⟩ | ⟨-, hole, -, rfl⟩
  · exact ⟨fun set => by simp [onFreeBlock, kept.staleNext set], kept.shortLimit, kept.holeInObject,
      kept.serials, kept.calls⟩
  · exact kept

theorem initOverflowCursor (feeds : Feeds (FlagsAbove h) collect)
    (up : FlagsUp h g.history)
    (success : LocalAllocator.initOverflowCursor collect self g = .ok g') : FlagsUp h g'.history := by
  obtain ⟨item, taken, took, rfl⟩ := initOverflowCursor_ok success
  obtain ⟨-, before, holds, shift⟩ := nextFreeBlock_taken feeds up took
  have kept : FlagsUp h taken.history := holds.congr (shift_history (Or.inr shift))
  exact kept

theorem reset (feeds : Feeds (FlagsAbove h) collect) (up : FlagsUp h g.history)
    (success : LocalAllocator.reset collect self g = .ok g') : FlagsUp h g'.history := by
  rw [LocalAllocator.reset] at success
  obtain ⟨middle, first, second⟩ := bind_eq_ok.mp success
  exact (up.initCursor feeds first).initOverflowCursor feeds second

theorem bumped {rsize object : Nat} (up : FlagsUp h g.history)
    (bumped : Bumped self rsize g object g') : FlagsUp h g'.history := by
  cases bumped with
  | main room bump =>
    obtain ⟨header, -, rfl⟩ := bump_ok bump
    exact up
  | overflow room bump =>
    obtain ⟨header, -, rfl⟩ := bump_ok bump
    exact up

theorem handOut {rsize object : Nat} (up : FlagsUp h g.history)
    (bumped : Bumped self rsize g object g') (size atomic : Nat) :
    FlagsUp h (Guarantees.handOut object size rsize atomic g').history :=
  have kept := up.bumped bumped
  ⟨kept.staleNext, kept.shortLimit, kept.holeInObject, Nat.le_succ_of_le kept.serials, kept.calls⟩

theorem allocationKeeps (feeds : Feeds (FlagsAbove h) collect)
    (self size rsize atomic : Nat) :
    AllocationKeeps (FlagsAbove h) collect self size rsize atomic where
  block _ _ up success := up.initCursor feeds success
  overflow _ _ up success := up.initOverflowCursor feeds success
  hole before up some := by
    rw [LocalAllocator.findNextHole, if_pos some]
    exact up
  object _ _ _ up bumped _ := up.handOut bumped size atomic
  nowhere _ _ up bumped := up.bumped bumped

theorem allocateSmall {size atomic pointer : Nat} (feeds : Feeds (FlagsAbove h) collect)
    (up : FlagsUp h g.history)
    (success : LocalAllocator.allocateSmall env collect self size atomic g = .ok (pointer, g')) :
    FlagsUp h g'.history := by
  rw [LocalAllocator.allocateSmall] at success
  obtain ⟨-, -, rest⟩ := bind_eq_ok.mp success
  exact allocateSmallLoop_keeps (allocationKeeps feeds _ _ _ _) _ up rest

theorem tryAllocateLarge {size atomic pointer : Nat} (up : FlagsUp h g.history)
    (success : GlobalAllocator.tryAllocateLarge env size atomic g = .ok (pointer, g')) :
    FlagsUp h g'.history := by
  rcases tryAllocateLargeFrom_frame _ _ success with rfl | ⟨list, object, bytes, rfl⟩
  · exact up
  · exact ⟨up.staleNext, up.shortLimit, up.holeInObject, Nat.le_succ_of_le up.serials, up.calls⟩

theorem growLarge {increment : Nat} (up : FlagsUp h g.history)
    (success : GlobalAllocator.growLarge env increment g = .ok g') : FlagsUp h g'.history := by
  obtain ⟨stop, size, list, -, rfl⟩ := growLarge_frame success
  exact up

theorem allocateLarge {size atomic pointer : Nat}
    (collecting : ∀ before after, FlagsUp h before.history → collect before = .ok after →
      FlagsUp h after.history) (up : FlagsUp h g.history)
    (success : GlobalAllocator.allocateLarge env collect size atomic g = .ok (pointer, g')) :
    FlagsUp h g'.history :=
  allocateLarge_induct (FlagsAbove h) up collecting
    (fun _ _ _ up tried => up.tryAllocateLarge tried) (fun _ _ _ up grown => up.growLarge grown) success

theorem mallocWithAtomic {size atomic pointer : Nat} (feeds : Feeds (FlagsAbove h) collect)
    (up : FlagsUp h g.history)
    (success : Source.mallocWithAtomic env collect size atomic g = .ok (pointer, g')) :
    FlagsUp h g'.history := by
  rw [Source.mallocWithAtomic] at success
  split at success
  · exact up.allocateSmall feeds success
  · exact up.allocateLarge feeds.collecting success

theorem clientStore {address value : Nat} (up : FlagsUp h g.history)
    (success : g.clientStore address value = .ok g') : FlagsUp h g'.history := by
  rw [Gc.clientStore] at success
  split at success
  · exact Except.ok.inj success ▸ up
  · cases success

/-- What a finalizer did is noted behind its call. -/
theorem finalizerRun {callback object : Nat}
    (success : Collector.callFinalizer env callback object g = .ok g') :
    FlagsUp (g.history.call object callback) g'.history := by
  rw [Collector.callFinalizer] at success
  refine @foldlM_keeps _ _ _ (FlagsAbove (g.history.call object callback)) _ _ _ (.refl _)
    (fun action _ before after up ran => ?_) success
  cases action with
  | store address value => exact up.clientStore ran
  | malloc size atomic destination =>
    rw [Collector.runAction] at ran
    obtain ⟨⟨pointer, middle⟩, allocated, stored⟩ := bind_eq_ok.mp ran
    exact (up.mallocWithAtomic feeds_noCollect allocated).clientStore stored

theorem callFinalizer {callback object : Nat} (up : FlagsUp h g.history)
    (success : Collector.callFinalizer env callback object g = .ok g') : FlagsAbove h g' :=
  up.trans ((call _ _ _).trans (finalizerRun success))

theorem markingKeeps : MarkingKeeps (FlagsAbove h) where
  chunks _ _ up _ := up
  roots _ _ up := up
  script _ _ up := up
  find g g' pointer up _ success := by
    rcases findAndMark_cases success with rfl | ⟨i, object, -, -, rfl⟩
    · exact up
    · rw [Collector.scanObject]
      split <;> exact up

theorem collectOnce (up : FlagsUp h g.history) (success : Source.collectOnce env g = .ok g') :
    FlagsUp h g'.history := by
  rw [Source.collectOnce] at success
  obtain ⟨swept, collecting, rest⟩ := bind_eq_ok.mp success
  obtain ⟨last, resetting, done⟩ := bind_eq_ok.mp rest
  obtain ⟨list, rooted, marked, finalized, list', -, rooting, marking, finalizing, -, rfl⟩ :=
    collect_phases collecting
  obtain ⟨memory, block, unmarked⟩ := unmarkSmallObjects_frame (setCollecting g true)
  rw [unmarked] at rooting
  have start : FlagsUp h (Collector.withChunkList
      { setCollecting g true with memory := memory, block := block } list).history := up
  have marked' := markingKeeps.mark _ (markingKeeps.callCollectCallback start rooting) marking
  have reset : FlagsUp h { marked with global := marked.global.resetCounters }.history := marked'
  have finalized' : FlagsAbove h finalized :=
    finalizeObjects_keeps (fun _ _ up => up)
      (fun _ _ _ _ up called => up.callFinalizer called) reset finalizing
  obtain ⟨memory', block', free, recyclable, recycled⟩ :=
    recycleBlocks_frame (Collector.noteSweep finalized)
  have swept' : FlagsUp h (Collector.withChunkList
      (GlobalAllocator.recycleBlocks (Collector.noteSweep finalized)) list').history := by
    rw [recycled]
    exact ⟨finalized'.staleNext, fun set => by simp [Collector.withChunkList, Collector.noteSweep,
      finalized'.shortLimit set], fun set => by simp [Collector.withChunkList, Collector.noteSweep,
      finalized'.holeInObject set], finalized'.serials, finalized'.calls⟩
  have reset' : FlagsAbove h last :=
    foldlM_keeps _ swept'
      (fun _ _ _ _ up ran => up.reset feeds_noCollect ran) resetting
  exact Except.ok.inj done ▸ reset'

theorem feeds : Feeds (FlagsAbove h) (Source.collectOnce env) :=
  ⟨fun _ _ up ran => up.collectOnce ran, fun _ _ up grown => up.growSmall grown⟩

end FlagsUp

end Steps

end ImmixGc.Guarantees
