import ImmixGc.Guarantees.LargeSpace
import ImmixGc.Source.Immix

/-!
# Where the local allocators get their blocks

`nextBlock` and `nextFreeBlock` take a block off a list, after a collection or a growth when
the lists are empty. What holds before a call and is kept by its few kinds of steps holds
when the block is taken, and after the whole allocation.
-/
namespace ImmixGc.Guarantees
open Source Foundation

/-- Collections and growth keep an invariant. -/
structure Feeds (invariant : Gc → Prop) (collect : Gc → Result Gc) : Prop where
  collecting : ∀ before after, invariant before → collect before = .ok after → invariant after
  growing : ∀ before after, invariant before → GlobalAllocator.growSmall before = .ok after →
    invariant after

/-- No collection starts while one runs. -/
theorem feeds_noCollect {invariant : Gc → Prop} (growing : ∀ before after, invariant before →
    GlobalAllocator.growSmall before = .ok after → invariant after) : Feeds invariant noCollect :=
  ⟨fun _ _ _ ran => (by cases ran), growing⟩

section Supply
variable {invariant : Gc → Prop} {collect : Gc → Result Gc} {g g' : Gc} {item : Nat}

/-- An empty list is left as it is. -/
theorem shiftRecyclable_null (none : (GlobalAllocator.shiftRecyclable g).1 = null) :
    (GlobalAllocator.shiftRecyclable g).2 = g := by
  simp only [GlobalAllocator.shiftRecyclable, BlockList.shift] at *
  split at none
  · next some => exact absurd none some
  · next empty => rw [if_neg empty]

theorem shiftFree_null (none : (GlobalAllocator.shiftFree g).1 = null) :
    (GlobalAllocator.shiftFree g).2 = g := by
  simp only [GlobalAllocator.shiftFree, BlockList.shift] at *
  split at none
  · next some => exact absurd none some
  · next empty => rw [if_neg empty]

theorem takeFree_taken (success : GlobalAllocator.takeFree g = .ok (item, g')) :
    item ≠ null ∧ GlobalAllocator.shiftFree g = (item, g') := by
  rw [GlobalAllocator.takeFree] at success
  generalize GlobalAllocator.shiftFree g = shifted at *
  obtain ⟨x, after⟩ := shifted
  dsimp only at success
  split at success
  · next some =>
    simp only [Except.ok.injEq, Prod.mk.injEq] at success
    obtain ⟨rfl, rfl⟩ := success
    exact ⟨some, rfl⟩
  · cases success

theorem growAndTakeFree_taken (feeds : Feeds invariant collect) (start : invariant g)
    (success : GlobalAllocator.growAndTakeFree g = .ok (item, g')) :
    item ≠ null ∧ ∃ before, invariant before ∧ GlobalAllocator.shiftFree before = (item, g') := by
  rw [GlobalAllocator.growAndTakeFree] at success
  obtain ⟨grown, growth, taking⟩ := bind_eq_ok.mp success
  obtain ⟨some, shifted⟩ := takeFree_taken taking
  refine ⟨some, grown, ?_, shifted⟩
  rw [GlobalAllocator.growIfEmpty] at growth
  split at growth
  · exact feeds.growing _ _ start growth
  · exact Except.ok.inj growth ▸ start

/-- `nextFreeBlock` takes its block off the free list. -/
theorem nextFreeBlock_taken (feeds : Feeds invariant collect) (start : invariant g)
    (success : GlobalAllocator.nextFreeBlock collect g = .ok (item, g')) :
    item ≠ null ∧ ∃ before, invariant before ∧ GlobalAllocator.shiftFree before = (item, g') := by
  rw [GlobalAllocator.nextFreeBlock] at success
  have unshifted := @shiftFree_null g
  generalize shift : GlobalAllocator.shiftFree g = shifted at *
  obtain ⟨x, after⟩ := shifted
  dsimp only at success unshifted
  split at success
  · next some =>
    simp only [Except.ok.injEq, Prod.mk.injEq] at success
    obtain ⟨rfl, rfl⟩ := success
    exact ⟨some, g, start, shift⟩
  next none =>
  rw [unshifted (Classical.not_not.mp none)] at success
  obtain ⟨⟨collected, middle⟩, mayCollect, rest⟩ := bind_eq_ok.mp success
  dsimp only at rest
  have kept : invariant middle := by
    rcases tryCollect_cases mayCollect with ⟨-, rfl⟩ | ⟨-, ran⟩
    · exact start
    · exact feeds.collecting _ _ start ran
  split at rest
  · exact growAndTakeFree_taken feeds kept rest
  · obtain ⟨grown, growth, taking⟩ := bind_eq_ok.mp rest
    obtain ⟨some, shifted⟩ := takeFree_taken taking
    exact ⟨some, grown, feeds.growing _ _ kept growth, shifted⟩

/-- `nextBlock` takes its block off the recyclable list or the free list. -/
theorem nextBlock_taken (feeds : Feeds invariant collect) (start : invariant g)
    (success : GlobalAllocator.nextBlock collect g = .ok (item, g')) :
    item ≠ null ∧ ∃ before, invariant before ∧
      (GlobalAllocator.shiftRecyclable before = (item, g') ∨
        GlobalAllocator.shiftFree before = (item, g')) := by
  have fromGrowth : ∀ middle, invariant middle →
      GlobalAllocator.growAndTakeFree middle = .ok (item, g') →
      item ≠ null ∧ ∃ before, invariant before ∧
        (GlobalAllocator.shiftRecyclable before = (item, g') ∨
          GlobalAllocator.shiftFree before = (item, g')) := by
    intro middle kept taking
    obtain ⟨some, before, holds, shifted⟩ := growAndTakeFree_taken feeds kept taking
    exact ⟨some, before, holds, Or.inr shifted⟩
  rw [GlobalAllocator.nextBlock] at success
  have noRecyclable := @shiftRecyclable_null g
  generalize recycle : GlobalAllocator.shiftRecyclable g = recycled at *
  obtain ⟨x, after⟩ := recycled
  dsimp only at success noRecyclable
  split at success
  · next some =>
    simp only [Except.ok.injEq, Prod.mk.injEq] at success
    obtain ⟨rfl, rfl⟩ := success
    exact ⟨some, g, start, Or.inl recycle⟩
  next none =>
  rw [noRecyclable (Classical.not_not.mp none)] at success
  clear recycle noRecyclable none
  have noFree := @shiftFree_null g
  generalize shift : GlobalAllocator.shiftFree g = shifted at *
  obtain ⟨y, after'⟩ := shifted
  dsimp only at success noFree
  split at success
  · next some =>
    simp only [Except.ok.injEq, Prod.mk.injEq] at success
    obtain ⟨rfl, rfl⟩ := success
    exact ⟨some, g, start, Or.inr shift⟩
  next none =>
  rw [noFree (Classical.not_not.mp none)] at success
  obtain ⟨⟨collected, middle⟩, mayCollect, rest⟩ := bind_eq_ok.mp success
  clear success shift noFree none
  dsimp only at rest
  rcases tryCollect_cases mayCollect with ⟨rfl, rfl⟩ | ⟨rfl, ran⟩
  · rw [if_neg (by decide)] at rest
    exact fromGrowth _ start rest
  rw [if_pos rfl] at rest
  have kept := feeds.collecting _ _ start ran
  have noRecyclable := @shiftRecyclable_null middle
  generalize recycle : GlobalAllocator.shiftRecyclable middle = recycled at *
  obtain ⟨z, after''⟩ := recycled
  dsimp only at rest noRecyclable
  split at rest
  · next some =>
    simp only [Except.ok.injEq, Prod.mk.injEq] at rest
    obtain ⟨rfl, rfl⟩ := rest
    exact ⟨some, middle, kept, Or.inl recycle⟩
  next none =>
  rw [noRecyclable (Classical.not_not.mp none)] at rest
  exact fromGrowth _ kept rest

end Supply

/-! ## The cursors -/

theorem store_store {α : Type} (cells : Nat → α) (address : Nat) (first second : α) :
    store (store cells address first) address second = store cells address second := by
  funext a
  simp only [store_apply]
  split <;> rfl

/-- The free branch of `LocalAllocator_initCursor`. -/
def onFreeBlock (self item : Nat) (g : Gc) : Gc :=
  { g with
    localAllocator := store g.localAllocator self
      { g.localAllocator self with
        block := item, cursor := Block.start item, limit := Block.stop item }
    history := { g.history with
      staleNext := g.history.staleNext || (g.localAllocator self).next != null } }

/-- Its recyclable branch, at the block's first hole. -/
def onFirstHole (self item hole : Nat) (g : Gc) : Gc :=
  g.setLocal self
    { g.localAllocator self with
      block := item, cursor := hole, limit := g.memory.load hole, next := g.memory.load (hole + 8) }

theorem initCursor_cases {collect : Gc → Result Gc} {self : Nat} {g g' : Gc}
    (success : LocalAllocator.initCursor collect self g = .ok g') :
    ∃ item taken, GlobalAllocator.nextBlock collect g = .ok (item, taken) ∧
      ((taken.block item).isFree = true ∧ g' = onFreeBlock self item taken ∨
        (taken.block item).isRecyclable = true ∧ ∃ hole,
          (taken.block item).firstFreeLine item = .ok hole ∧ g' = onFirstHole self item hole taken) := by
  rw [LocalAllocator.initCursor] at success
  obtain ⟨⟨item, taken⟩, took, rest⟩ := bind_eq_ok.mp success
  clear success
  refine ⟨item, taken, took, ?_⟩
  dsimp only [Gc.setLocal] at rest
  split at rest
  · next free =>
    rw [store_same, store_store] at rest
    exact Or.inl ⟨free, (Except.ok.inj rest).symm⟩
  split at rest
  · next recyclable =>
    obtain ⟨hole, first, done⟩ := bind_eq_ok.mp rest
    rw [store_same, store_store] at done
    exact Or.inr ⟨recyclable, hole, first, (Except.ok.inj done).symm⟩
  · cases rest

/-- `LocalAllocator_initOverflowCursor` after its block was taken. -/
def onOverflowBlock (self item : Nat) (g : Gc) : Gc :=
  g.setLocal self
    { g.localAllocator self with
      overflowBlock := item
      overflowCursor := Block.start item
      overflowLimit := Block.stop item }

theorem initOverflowCursor_ok {collect : Gc → Result Gc} {self : Nat} {g g' : Gc}
    (success : LocalAllocator.initOverflowCursor collect self g = .ok g') :
    ∃ item taken, GlobalAllocator.nextFreeBlock collect g = .ok (item, taken) ∧
      g' = onOverflowBlock self item taken := by
  rw [LocalAllocator.initOverflowCursor] at success
  obtain ⟨⟨item, taken⟩, took, rest⟩ := bind_eq_ok.mp success
  exact ⟨item, taken, took, (Except.ok.inj rest).symm⟩

/-- The heap with `increment` bytes more and `pushed` on the free list. -/
def withPushed (g : Gc) (increment size : Nat) (pushed : List Nat) : Gc :=
  { g with
    block := (GlobalAllocator.pushBlocks g.block g.global.freeList pushed).1
    global := { g.global with
      smallHeapStop := g.global.smallHeapStop + increment
      smallHeapSize := size
      freeList := (GlobalAllocator.pushBlocks g.block g.global.freeList pushed).2 } }

theorem intOf_toNat_le (n : Nat) : (intOf n).toNat ≤ n := by
  have width : (2 ^ 32 : Nat) = 4294967296 := by decide
  unfold intOf
  rw [Int.bmod_eq_emod, width]
  split <;> omega

/-- The limit leaves half of the address space, and both heaps respect it together. -/
structure Sized (global : GlobalAllocator) : Prop where
  limit : global.memoryLimit < 2 ^ 63
  within : global.smallHeapSize + global.largeHeapSize ≤ global.memoryLimit

theorem roundToBlock_bounds {size : Nat} (fits : size ≤ 2 ^ 63) :
    roundToNextMultiple size blockSize % 32768 = 0 ∧ size ≤ roundToNextMultiple size blockSize ∧
      roundToNextMultiple size blockSize < size + 32768 := by
  have room : size + blockSize ≤ sizeModulus := by simp only [blockSize, sizeModulus]; omega
  have rounded : roundToNextMultiple size blockSize = (size + 32767) / 32768 * 32768 :=
    roundToNextMultiple_eq size blockSize (by decide) room
  omega

/-- Neither check of the limit wraps. -/
theorem Sized.fits {global : GlobalAllocator} {increment : Nat} (sized : Sized global)
    (bound : increment ≤ 2 ^ 63)
    (room : ¬ sizeAdd (sizeAdd global.smallHeapSize global.largeHeapSize) increment >
      global.memoryLimit) :
    global.smallHeapSize + global.largeHeapSize + increment ≤ global.memoryLimit := by
  obtain ⟨limit, within⟩ := sized
  simp only [sizeAdd, sizeModulus] at room
  omega

/-- `GlobalAllocator_growSmall` pushes no more blocks than the heap grows by. -/
theorem growSmall_pushes {g g' : Gc} (success : GlobalAllocator.growSmall g = .ok g') :
    ∃ increment count size, increment % blockSize = 0 ∧ count * blockSize ≤ increment ∧
      (Sized g.global → g.global.smallHeapSize ≤ size ∧
        size + g.global.largeHeapSize ≤ g.global.memoryLimit) ∧
      g' = withPushed g increment size
        ((List.range count).map fun i => g.global.smallHeapStop + i * blockSize) := by
  rw [GlobalAllocator.growSmall] at success
  dsimp only at success
  split at success
  · cases success
  next room =>
  have multiple : roundToNextMultiple (sizeMul g.global.smallHeapSize growthRate / 100) blockSize %
      blockSize = 0 := by
    simp only [roundToNextMultiple, sizeMul, sizeModulus, blockSize]
    omega
  have wrapped : sizeMul g.global.smallHeapSize growthRate < 2 ^ 64 := Nat.mod_lt _ (by decide)
  generalize sizeMul g.global.smallHeapSize growthRate = rate at *
  have rounded := (@roundToBlock_bounds (rate / 100) (by omega)).2.2
  generalize roundToNextMultiple (rate / 100) blockSize = increment at *
  have counted := intOf_toNat_le (increment / blockSize)
  generalize (intOf (increment / blockSize)).toNat = count at *
  refine ⟨increment, count, sizeAdd g.global.smallHeapSize increment, multiple, ?_, fun sized => ?_,
    (Except.ok.inj success).symm⟩
  · simp only [blockSize] at *
    omega
  · have fits := sized.fits (by omega) room
    have limit := sized.limit
    rw [sizeAdd_eq (by simp only [sizeModulus]; omega)]
    omega

theorem Sized.growSmall {g g' : Gc} (sized : Sized g.global)
    (success : GlobalAllocator.growSmall g = .ok g') :
    Sized g'.global ∧ g.global.heapSize ≤ g'.global.heapSize := by
  obtain ⟨increment, count, size, -, -, sizes, rfl⟩ := growSmall_pushes success
  obtain ⟨grown, within⟩ := sizes sized
  have limit := sized.limit
  refine ⟨⟨sized.limit, within⟩, ?_⟩
  simp only [GlobalAllocator.heapSize, withPushed]
  rw [sizeAdd_eq (by simp only [sizeModulus]; omega), sizeAdd_eq (by simp only [sizeModulus]; omega)]
  omega

/-- `bump` after `Line_update`. -/
theorem bump_ok {block cursor limit size : Nat} {g g' : Gc}
    (success : LocalAllocator.bump block cursor limit size g = .ok g') :
    ∃ header, lineUpdate (g.block block) block cursor = .ok header ∧
      g' = { g with
        block := store g.block block header
        memory := if cursor + size < limit then g.memory.store (cursor + size) 0 else g.memory } := by
  rw [LocalAllocator.bump] at success
  obtain ⟨header, updated, done⟩ := bind_eq_ok.mp success
  exact ⟨header, updated, (Except.ok.inj done).symm⟩

/-- `Line_update` changes one line header. -/
theorem lineUpdate_ok {header header' : Block} {block object : Nat}
    (success : lineUpdate header block object = .ok header') :
    ∃ lineHeaders, header' = { header with lineHeaders := lineHeaders } := by
  rw [lineUpdate] at success
  obtain ⟨-, -, rest⟩ := bind_eq_ok.mp success
  split at rest
  · cases rest
  obtain ⟨-, -, last⟩ := bind_eq_ok.mp rest
  split at last
  · exact ⟨header.lineHeaders, (Except.ok.inj last).symm⟩
  · obtain ⟨-, -, set⟩ := bind_eq_ok.mp last
    obtain ⟨-, -, done⟩ := bind_eq_ok.mp set
    exact ⟨_, (Except.ok.inj done).symm⟩

/-! ## A whole small allocation -/

/-- Bumping the cursor of the block, or of the overflow block, by `rsize` bytes. -/
inductive Bumped (self rsize : Nat) (g : Gc) : Nat → Gc → Prop where
  | main {b : Gc}
      (room : (g.localAllocator self).cursor + rsize ≤ (g.localAllocator self).limit)
      (bump : LocalAllocator.bump (g.localAllocator self).block (g.localAllocator self).cursor
        (g.localAllocator self).limit rsize g = .ok b) :
      Bumped self rsize g (g.localAllocator self).cursor
        (b.setLocal self { g.localAllocator self with
          cursor := (g.localAllocator self).cursor + rsize })
  | overflow {b : Gc}
      (room : (g.localAllocator self).overflowCursor + rsize ≤ (g.localAllocator self).overflowLimit)
      (bump : LocalAllocator.bump (g.localAllocator self).overflowBlock
        (g.localAllocator self).overflowCursor (g.localAllocator self).overflowLimit rsize g = .ok b) :
      Bumped self rsize g (g.localAllocator self).overflowCursor
        (b.setLocal self { g.localAllocator self with
          overflowCursor := (g.localAllocator self).overflowCursor + rsize })

/-- What `GC_LocalAllocator_allocateSmall` does with the object it found. -/
def handOut (object size rsize atomic : Nat) (g : Gc) : Gc :=
  { g with
    memory := Object.allocate g.memory object rsize atomic
    global := g.global.incrementCounters size
    history := g.history.allocated object rsize }

/-- The steps of `GC_LocalAllocator_allocateSmall` keep an invariant. -/
structure AllocationKeeps (invariant : Gc → Prop) (collect : Gc → Result Gc)
    (allocator size rsize atomic : Nat) : Prop where
  block : ∀ before after, invariant before →
    LocalAllocator.initCursor collect allocator before = .ok after → invariant after
  overflow : ∀ before after, invariant before →
    LocalAllocator.initOverflowCursor collect allocator before = .ok after → invariant after
  hole : ∀ before, invariant before → (before.localAllocator allocator).next ≠ null →
    invariant (LocalAllocator.findNextHole allocator before).2
  object : ∀ before after object, invariant before → Bumped allocator rsize before object after →
    object ≠ null → invariant (handOut object size rsize atomic after)
  /-- A block at address 0 would hand out `NULL`. -/
  nowhere : ∀ before after, invariant before → Bumped allocator rsize before null after → invariant after

section Allocation
variable {invariant : Gc → Prop} {collect : Gc → Result Gc} {self size rsize atomic : Nat}

theorem findNextHole_cases (self : Nat) (g : Gc) :
    ((g.localAllocator self).next ≠ null ∧
      LocalAllocator.findNextHole self g = (true, (LocalAllocator.findNextHole self g).2)) ∨
    LocalAllocator.findNextHole self g = (false, g) := by
  rw [LocalAllocator.findNextHole]
  split
  · next some => exact Or.inl ⟨some, rfl⟩
  · exact Or.inr rfl

theorem overflowAllocateSmall_bumped (keeps : AllocationKeeps invariant collect self size rsize atomic)
    (fuel : Nat) {g g' : Gc} {object : Nat} (start : invariant g)
    (success : LocalAllocator.overflowAllocateSmall collect self rsize fuel g = .ok (object, g')) :
    ∃ before, invariant before ∧ Bumped self rsize before object g' := by
  induction fuel generalizing g with
  | zero => cases success
  | succ fuel ih =>
    rw [LocalAllocator.overflowAllocateSmall] at success
    split at success
    · next room =>
      obtain ⟨bumped, bump, done⟩ := bind_eq_ok.mp success
      simp only [Except.ok.injEq, Prod.mk.injEq] at done
      obtain ⟨rfl, rfl⟩ := done
      exact ⟨g, start, .overflow room bump⟩
    · obtain ⟨next, init, rest⟩ := bind_eq_ok.mp success
      exact ih (keeps.overflow _ _ start init) rest

theorem tryAllocateSmall_bumped (keeps : AllocationKeeps invariant collect self size rsize atomic)
    (fuel : Nat) {g g' : Gc} {object : Nat} (start : invariant g)
    (success : LocalAllocator.tryAllocateSmall collect self rsize fuel g = .ok (object, g')) :
    ∃ before, invariant before ∧
      (object = null ∧ g' = before ∨ Bumped self rsize before object g') := by
  induction fuel generalizing g with
  | zero => cases success
  | succ fuel ih =>
    rw [LocalAllocator.tryAllocateSmall] at success
    split at success
    · next room =>
      obtain ⟨bumped, bump, done⟩ := bind_eq_ok.mp success
      simp only [Except.ok.injEq, Prod.mk.injEq] at done
      obtain ⟨rfl, rfl⟩ := done
      exact ⟨g, start, Or.inr (.main room bump)⟩
    split at success
    · obtain ⟨before, holds, bumped⟩ := overflowAllocateSmall_bumped keeps fuel start success
      exact ⟨before, holds, Or.inr bumped⟩
    rcases findNextHole_cases self g with ⟨some, found⟩ | none
    · rw [found] at success
      exact ih (keeps.hole g start some) success
    · rw [none] at success
      simp only [Bool.false_eq_true, if_false, Except.ok.injEq, Prod.mk.injEq] at success
      exact ⟨g, start, Or.inl ⟨success.1.symm, success.2.symm⟩⟩

/-- The loop ends with an object that was bumped and handed out. -/
theorem allocateSmallLoop_handsOut
    (keeps : AllocationKeeps invariant collect self size rsize atomic) (fuel : Nat) {g g' : Gc}
    {pointer : Nat} (start : invariant g)
    (success : LocalAllocator.allocateSmallLoop collect self size rsize atomic fuel g =
      .ok (pointer, g')) :
    ∃ before object bumped, invariant before ∧ Bumped self rsize before object bumped ∧
      object ≠ null ∧ pointer = Object.mutatorAddress object ∧
      g' = handOut object size rsize atomic bumped := by
  induction fuel generalizing g with
  | zero => cases success
  | succ fuel ih =>
    rw [LocalAllocator.allocateSmallLoop] at success
    obtain ⟨⟨object, tried⟩, trying, rest⟩ := bind_eq_ok.mp success
    clear success
    obtain ⟨before, holds, found⟩ := tryAllocateSmall_bumped keeps fuel start trying
    dsimp only at rest
    split at rest
    · next some =>
      simp only [Except.ok.injEq, Prod.mk.injEq] at rest
      obtain ⟨rfl, rfl⟩ := rest
      exact ⟨before, object, tried, holds, found.resolve_left fun none => some none.1, some, rfl, rfl⟩
    · next none =>
      obtain rfl := Classical.not_not.mp none
      have kept : invariant tried := by
        rcases found with ⟨-, rfl⟩ | bumped
        · exact holds
        · exact keeps.nowhere _ _ holds bumped
      obtain ⟨next, init, last⟩ := bind_eq_ok.mp rest
      exact ih (keeps.block _ _ kept init) last

theorem allocateSmallLoop_keeps
    (keeps : AllocationKeeps invariant collect self size rsize atomic) (fuel : Nat) {g g' : Gc}
    {pointer : Nat} (start : invariant g)
    (success : LocalAllocator.allocateSmallLoop collect self size rsize atomic fuel g =
      .ok (pointer, g')) : invariant g' := by
  obtain ⟨before, object, bumped, holds, found, some, -, rfl⟩ :=
    allocateSmallLoop_handsOut keeps fuel start success
  exact keeps.object _ _ _ holds found some

end Allocation

/-! ## What a large allocation leaves alone -/

theorem tryAllocateLargeFrom_frame {size atomic pointer : Nat} {g g' : Gc} (fuel chunk : Nat)
    (success : GlobalAllocator.tryAllocateLargeFrom size atomic fuel chunk g = .ok (pointer, g')) :
    g' = g ∨ ∃ list object bytes, g' = { g with
      global := ({ g.global with largeChunkList := list } : GlobalAllocator).incrementCounters size
      history := g.history.allocated object bytes } := by
  induction fuel generalizing chunk with
  | zero => cases success
  | succ fuel ih =>
    rw [GlobalAllocator.tryAllocateLargeFrom] at success
    split at success
    · simp only [Except.ok.injEq, Prod.mk.injEq] at success
      exact Or.inl success.2.symm
    · obtain ⟨_, -, rest⟩ := bind_eq_ok.mp success
      obtain ⟨_, -, rest'⟩ := bind_eq_ok.mp rest
      dsimp only at rest'
      split at rest'
      · obtain ⟨list, -, last⟩ := bind_eq_ok.mp rest'
        simp only [Except.ok.injEq, Prod.mk.injEq] at last
        exact Or.inr ⟨_, _, _, last.2.symm⟩
      · exact ih _ rest'

theorem growLarge_frame {env : Env} {increment : Nat} {g g' : Gc}
    (success : GlobalAllocator.growLarge env increment g = .ok g') :
    ∃ stop size list, (Sized g.global → g.global.smallHeapSize + size ≤ g.global.memoryLimit) ∧
      g' = { g with
        global := { g.global with
          largeHeapStop := stop, largeHeapSize := size, largeChunkList := list } } := by
  rw [GlobalAllocator.growLarge] at success
  split at success
  · cases success
  next shift =>
  dsimp only at success
  split at success
  · cases success
  next room =>
  refine ⟨_, _, _, fun sized => ?_, (Except.ok.inj success).symm⟩
  have power : 2 ^ env.ceilLog2 increment ≤ 2 ^ 63 := Nat.pow_le_pow_right (by decide) (by omega)
  clear success
  generalize 2 ^ env.ceilLog2 increment = requested at *
  obtain ⟨multiple, -, rounded⟩ := roundToBlock_bounds power
  generalize roundToNextMultiple requested blockSize = size at *
  have fits := sized.fits (by omega) room
  have limit := sized.limit
  rw [sizeAdd_eq (by simp only [sizeModulus]; omega)]
  omega

theorem Sized.growLarge {env : Env} {increment : Nat} {g g' : Gc} (sized : Sized g.global)
    (success : GlobalAllocator.growLarge env increment g = .ok g') : Sized g'.global := by
  obtain ⟨stop, size, list, sizes, rfl⟩ := growLarge_frame success
  exact ⟨sized.limit, sizes sized⟩

end ImmixGc.Guarantees
