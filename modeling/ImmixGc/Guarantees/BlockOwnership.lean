import ImmixGc.Guarantees.CollectionSpace

/-!
# Who holds a block

A block of the small heap is on the free list, on the recyclable list, held by one local
allocator in one of its two slots, or waiting for the next collection. A collection puts all
blocks back on the lists and relies on every holder being reset right after.
-/
namespace ImmixGc.Guarantees
open Source Foundation

/-- The two fields of a `LocalAllocator` that hold a block. -/
inductive Slot where
  | main (self : Nat)
  | overflow (self : Nat)
  deriving DecidableEq

namespace Slot

def owner : Slot → Nat
  | main self => self
  | overflow self => self

def block (g : Gc) : Slot → Nat
  | main self => (g.localAllocator self).block
  | overflow self => (g.localAllocator self).overflowBlock

end Slot

/-- The small heap consists of whole blocks. -/
structure WholeBlocks (start stop : Nat) : Prop where
  mapped : 0 < start
  ordered : start ≤ stop
  whole : (stop - start) % blockSize = 0

/-- The blocks on the two lists and in some slots are different blocks. -/
structure Owned (g : Gc) (slots : Slot → Prop) (free recyclable : List Nat) : Prop where
  heap : WholeBlocks g.global.smallHeapStart g.global.smallHeapStop
  freeListed : Listed g.block g.global.freeList free
  recyclableListed : Listed g.block g.global.recyclableList recyclable
  listed : ∀ b, b ∈ free ∨ b ∈ recyclable → b ∈ g.global.blocks
  disjoint : ∀ b ∈ free, b ∉ recyclable
  held : ∀ x, slots x → x.block g ∈ g.global.blocks ∧ x.block g ∉ free ∧ x.block g ∉ recyclable
  distinct : ∀ x y, slots x → slots y → x.block g = y.block g → x = y

/-- The slots of the allocators in `GC_local_allocators`. -/
def Registered (g : Gc) (x : Slot) : Prop := x.owner ∈ g.localAllocators

/-- Every block has one place. -/
def Exclusive (g : Gc) : Prop := ∃ free recyclable, Owned g (Registered g) free recyclable

namespace Owned
variable {g g' : Gc} {slots slots' : Slot → Prop} {free recyclable : List Nat} {item : Nat}

theorem subset (own : Owned g slots free recyclable) (fewer : ∀ x, slots' x → slots x) :
    Owned g slots' free recyclable :=
  ⟨own.heap, own.freeListed, own.recyclableListed, own.listed, own.disjoint, fun x h => own.held x (fewer x h),
    fun x y hx hy => own.distinct x y (fewer x hx) (fewer y hy)⟩

/-- Only links, lists, bounds and slots matter. -/
theorem congr (own : Owned g slots free recyclable)
    (next : ∀ b, (g'.block b).next = (g.block b).next)
    (sameFree : g'.global.freeList = g.global.freeList)
    (sameRecyclable : g'.global.recyclableList = g.global.recyclableList)
    (start : g'.global.smallHeapStart = g.global.smallHeapStart)
    (stop : g'.global.smallHeapStop = g.global.smallHeapStop)
    (same : ∀ x, slots x → x.block g' = x.block g) : Owned g' slots free recyclable := by
  have blocks : g'.global.blocks = g.global.blocks := by
    rw [GlobalAllocator.blocks, GlobalAllocator.blocks, start, stop]
  refine ⟨by rw [start, stop]; exact own.heap, ?_, ?_, ?_, own.disjoint,
    fun x hx => ?_, fun x y hx hy => ?_⟩
  · rw [sameFree]
    exact own.freeListed.congr fun b _ => next b
  · rw [sameRecyclable]
    exact own.recyclableListed.congr fun b _ => next b
  · rw [blocks]
    exact own.listed
  · rw [same x hx, blocks]
    exact own.held x hx
  · rw [same x hx, same y hy]
    exact own.distinct x y hx hy

/-- A block that was taken off a list is in no place. -/
structure Loose (g : Gc) (slots : Slot → Prop) (free recyclable : List Nat) (item : Nat) : Prop where
  owned : Owned g slots free recyclable
  inHeap : item ∈ g.global.blocks
  notFree : item ∉ free
  notRecyclable : item ∉ recyclable
  notHeld : ∀ x, slots x → x.block g ≠ item

theorem shiftFree (own : Owned g slots free recyclable) (some : item ≠ null)
    (shift : GlobalAllocator.shiftFree g = (item, g')) :
    ∃ rest, free = item :: rest ∧ Loose g' slots rest recyclable item := by
  rw [GlobalAllocator.shiftFree, Prod.mk.injEq] at shift
  obtain ⟨first, rfl⟩ := shift
  cases free with
  | nil =>
    rw [own.freeListed.shift_nil] at first
    exact absurd first.symm some
  | cons head rest =>
    obtain ⟨taken, listed⟩ := own.freeListed.shift_cons
    obtain rfl : head = item := taken.symm.trans first
    refine ⟨rest, rfl, ⟨own.heap, listed, own.recyclableListed, fun b h => own.listed b ?_,
      fun b h => own.disjoint b (List.mem_cons_of_mem _ h), fun x hx => ?_, own.distinct⟩,
      own.listed head (Or.inl List.mem_cons_self), (List.nodup_cons.mp own.freeListed.nodup).1,
      own.disjoint head List.mem_cons_self,
      fun x hx same => (own.held x hx).2.1 (same ▸ List.mem_cons_self)⟩
    · exact h.imp_left (List.mem_cons_of_mem _)
    · obtain ⟨inHeap, notFree, notRecyclable⟩ := own.held x hx
      exact ⟨inHeap, fun h => notFree (List.mem_cons_of_mem _ h), notRecyclable⟩

theorem shiftRecyclable (own : Owned g slots free recyclable) (some : item ≠ null)
    (shift : GlobalAllocator.shiftRecyclable g = (item, g')) :
    ∃ rest, recyclable = item :: rest ∧ Loose g' slots free rest item := by
  rw [GlobalAllocator.shiftRecyclable, Prod.mk.injEq] at shift
  obtain ⟨first, rfl⟩ := shift
  cases recyclable with
  | nil =>
    rw [own.recyclableListed.shift_nil] at first
    exact absurd first.symm some
  | cons head rest =>
    obtain ⟨taken, listed⟩ := own.recyclableListed.shift_cons
    obtain rfl : head = item := taken.symm.trans first
    refine ⟨rest, rfl, ⟨own.heap, own.freeListed, listed, fun b h => own.listed b ?_,
      fun b h wrong => own.disjoint b h (List.mem_cons_of_mem _ wrong), fun x hx => ?_, own.distinct⟩,
      own.listed head (Or.inr List.mem_cons_self),
      fun wrong => own.disjoint head wrong List.mem_cons_self,
      (List.nodup_cons.mp own.recyclableListed.nodup).1,
      fun x hx same => (own.held x hx).2.2 (same ▸ List.mem_cons_self)⟩
    · exact h.imp_right (List.mem_cons_of_mem _)
    · obtain ⟨inHeap, notFree, notRecyclable⟩ := own.held x hx
      exact ⟨inHeap, notFree, fun h => notRecyclable (List.mem_cons_of_mem _ h)⟩

/-- It may be put in a slot. -/
theorem Loose.assign (loose : Loose g slots free recyclable item) {slot : Slot}
    (blocks : g'.block = g.block) (global : g'.global = g.global) (here : slot.block g' = item)
    (others : ∀ x, x ≠ slot → x.block g' = x.block g) :
    Owned g' (fun x => slots x ∨ x = slot) free recyclable := by
  obtain ⟨own, inHeap, notFree, notRecyclable, notHeld⟩ := loose
  refine ⟨by rw [global]; exact own.heap, ?_, ?_, ?_, own.disjoint, fun x hx => ?_,
    fun x y hx hy same => ?_⟩
  · rw [blocks, global]
    exact own.freeListed
  · rw [blocks, global]
    exact own.recyclableListed
  · rw [global]
    exact own.listed
  · rw [global]
    by_cases new : x = slot
    · rw [new, here]
      exact ⟨inHeap, notFree, notRecyclable⟩
    · rw [others x new]
      exact own.held x (hx.resolve_right new)
  · by_cases newX : x = slot
    · by_cases newY : y = slot
      · rw [newX, newY]
      · rw [newX, here, others y newY] at same
        exact absurd same.symm (notHeld y (hy.resolve_right newY))
    · by_cases newY : y = slot
      · rw [newY, here, others x newX] at same
        exact absurd same (notHeld x (hx.resolve_right newX))
      · rw [others x newX, others y newY] at same
        exact own.distinct x y (hx.resolve_right newX) (hy.resolve_right newY) same

end Owned

/-- The blocks that growth pushes lie behind the heap. -/
theorem mem_newBlocks {stop count b : Nat}
    (member : b ∈ (List.range count).map fun i => stop + i * blockSize) :
    ∃ i < count, b = stop + i * blockSize := by
  obtain ⟨i, bound, rfl⟩ := List.mem_map.mp member
  exact ⟨i, List.mem_range.mp bound, rfl⟩

theorem newBlocks_nodup (stop count : Nat) :
    ((List.range count).map fun i => stop + i * blockSize).Nodup := by
  refine List.Nodup.map ?_ List.nodup_range
  intro i j same
  simp only [blockSize] at same
  omega

namespace Owned
variable {g g' : Gc} {slots : Slot → Prop} {free recyclable : List Nat}

theorem growSmall (own : Owned g slots free recyclable)
    (success : GlobalAllocator.growSmall g = .ok g') :
    ∃ pushed, Owned g' slots (free ++ pushed) recyclable ∧
      (∀ b ∈ pushed, b ∉ g.global.blocks) ∧ (∀ b ∈ g.global.blocks, b ∈ g'.global.blocks) ∧
      ∀ b, SameBlock (g'.block b) (if b ∈ pushed then Block.init else g.block b) := by
  obtain ⟨increment, count, size, multiple, fits, -, rfl⟩ := growSmall_pushes success
  have new := @mem_newBlocks g.global.smallHeapStop count
  have nodup := newBlocks_nodup g.global.smallHeapStop count
  generalize ((List.range count).map fun i => g.global.smallHeapStop + i * blockSize) = pushed at *
  obtain ⟨mapped, ordered, whole⟩ := own.heap
  have outside : ∀ b ∈ pushed, b ∉ g.global.blocks := by
    intro b member old
    obtain ⟨i, -, rfl⟩ := new member
    obtain ⟨j, -, inside⟩ := mem_blocks.mp old
    omega
  have kept : ∀ b ∈ g.global.blocks, b ∈ (withPushed g increment size pushed).global.blocks := by
    intro b member
    obtain ⟨j, place, inside⟩ := mem_blocks.mp member
    refine mem_blocks.mpr ⟨j, place, ?_⟩
    simp only [withPushed]
    omega
  have added : ∀ b ∈ pushed, b ∈ (withPushed g increment size pushed).global.blocks := by
    intro b member
    obtain ⟨i, bound, rfl⟩ := new member
    refine mem_blocks.mpr
      ⟨(g.global.smallHeapStop - g.global.smallHeapStart) / blockSize + i, ?_, ?_⟩
    · simp only [withPushed, blockSize] at *
      omega
    · simp only [withPushed, blockSize] at *
      omega
  have positive : null ∉ pushed := fun member => by
    obtain ⟨i, -, zero⟩ := new member
    simp only [null] at zero
    omega
  obtain ⟨listed, others⟩ := pushBlocks_listed pushed own.freeListed
    (fun b member old => outside b member (own.listed b (Or.inl old))) nodup positive
  refine ⟨pushed, ⟨⟨mapped, ?_, ?_⟩, listed, ?_, ?_, ?_, fun x hx => ?_, own.distinct⟩, outside, kept,
    pushBlocks_same pushed g.block g.global.freeList⟩
  · simp only [withPushed]
    omega
  · simp only [withPushed, blockSize] at *
    omega
  · refine own.recyclableListed.congr fun b member => ?_
    exact congrArg Block.next (others b (fun wrong => own.disjoint b wrong member)
      fun wrong => outside b wrong (own.listed b (Or.inr member)))
  · rintro b (inFree | inRecyclable)
    · rcases List.mem_append.mp inFree with old | member
      · exact kept b (own.listed b (Or.inl old))
      · exact added b member
    · exact kept b (own.listed b (Or.inr inRecyclable))
  · intro b inFree inRecyclable
    rcases List.mem_append.mp inFree with old | member
    · exact own.disjoint b old inRecyclable
    · exact outside b member (own.listed b (Or.inr inRecyclable))
  · obtain ⟨inHeap, notFree, notRecyclable⟩ := own.held x hx
    refine ⟨kept _ inHeap, fun wrong => ?_, notRecyclable⟩
    rcases List.mem_append.mp wrong with old | member
    · exact notFree old
    · exact outside _ member inHeap

end Owned

/-! ## What a collection needs before its sweep

The sweep makes all lists anew, so nothing needs to be known of them before it. -/

/-- The small heap consists of whole blocks, and these allocators are registered. -/
structure Spaced (registered : List Nat) (g : Gc) : Prop where
  heap : WholeBlocks g.global.smallHeapStart g.global.smallHeapStop
  sized : Sized g.global
  allocators : g.localAllocators = registered

namespace Spaced
variable {registered : List Nat} {g g' : Gc}

theorem growSmall (spaced : Spaced registered g) (success : GlobalAllocator.growSmall g = .ok g') :
    Spaced registered g' := by
  obtain ⟨⟨mapped, ordered, whole⟩, sized, allocators⟩ := spaced
  have sized' := (sized.growSmall success).1
  obtain ⟨increment, count, size, multiple, -, -, rfl⟩ := growSmall_pushes success
  refine ⟨⟨mapped, ?_, ?_⟩, sized', allocators⟩
  · simp only [withPushed]
    omega
  · simp only [withPushed, blockSize] at *
    omega

/-- Only growth changes the extents, whatever is requested and swept. -/
theorem spaceKeeps (env : Env) (registered : List Nat) :
    SpaceKeeps env (fun _ => True) (fun _ => True) (Spaced registered) where
  congr before after spaced same _ allocators := by
    obtain ⟨heap, ⟨limit, within⟩, here⟩ := spaced
    simp only [space, Space.mk.injEq] at same
    obtain ⟨start, stop, small, -, -, large, limits⟩ := same
    refine ⟨?_, ⟨?_, ?_⟩, allocators.trans here⟩
    · rw [start, stop]
      exact heap
    · rw [limits]
      exact limit
    · rw [small, large, limits]
      exact within
  growSmall _ _ spaced grown := spaced.growSmall grown
  growLarge before after increment spaced grown := by
    have sized := spaced.sized.growLarge grown
    obtain ⟨stop, size, list, -, rfl⟩ := growLarge_frame grown
    exact ⟨spaced.heap, sized, spaced.allocators⟩
  allocate before after size atomic pointer spaced _ tried := by
    rcases tryAllocateLargeFrom_frame _ _ tried with rfl | ⟨list, object, bytes, rfl⟩
    · exact spaced
    · exact ⟨spaced.heap, ⟨spaced.sized.limit, spaced.sized.within⟩, spaced.allocators⟩
  sweep _ _ spaced _ _ :=
    ⟨spaced.heap, ⟨spaced.sized.limit, spaced.sized.within⟩, spaced.allocators⟩

end Spaced

/-! ## A collection -/

section Collection
variable {env : Env} {registered : List Nat} {g g' : Gc}

/-- A sweep puts every block on a list or leaves it out; no slot holds one yet. -/
theorem Spaced.recycleBlocks (spaced : Spaced registered g) :
    Owned (GlobalAllocator.recycleBlocks g) (fun _ => False)
      (g.global.blocks.filter fun b => !(g.block b).isMarked)
      (g.global.blocks.filter fun b =>
        (g.block b).isMarked && decide (HasHole (g.block b).lineHeaders)) := by
  have swept := recycleBlocks_spec g spaced.heap.mapped
  have rest := swept.rest
  have start : (GlobalAllocator.recycleBlocks g).global.smallHeapStart = g.global.smallHeapStart := by
    rw [rest]
  have stop : (GlobalAllocator.recycleBlocks g).global.smallHeapStop = g.global.smallHeapStop := by
    rw [rest]
  have blocks : (GlobalAllocator.recycleBlocks g).global.blocks = g.global.blocks := by
    rw [GlobalAllocator.blocks, GlobalAllocator.blocks, start, stop]
  refine ⟨by rw [start, stop]; exact spaced.heap, swept.free, swept.recyclable, ?_, ?_,
    fun _ none => none.elim, fun _ _ none => none.elim⟩
  · rw [blocks]
    rintro b (member | member)
    · exact List.mem_of_mem_filter member
    · exact List.mem_of_mem_filter member
  · intro b inFree inRecyclable
    have unmarked := (List.mem_filter.mp inFree).2
    have marked := (List.mem_filter.mp inRecyclable).2
    rw [Bool.and_eq_true] at marked
    rw [marked.1] at unmarked
    cases unmarked

/-- One place for every block, in some slots, with some allocators registered. -/
structure Placed (registered : List Nat) (slots : Slot → Prop) (g : Gc) : Prop where
  owned : ∃ free recyclable, Owned g slots free recyclable
  sized : Sized g.global
  allocators : g.localAllocators = registered

theorem Placed.spaced {slots : Slot → Prop} (placed : Placed registered slots g) :
    Spaced registered g := by
  obtain ⟨⟨free, recyclable, own⟩, sized, allocators⟩ := placed
  exact ⟨own.heap, sized, allocators⟩

theorem Placed.growSmall {slots : Slot → Prop} (placed : Placed registered slots g)
    (success : GlobalAllocator.growSmall g = .ok g') : Placed registered slots g' := by
  obtain ⟨⟨free, recyclable, own⟩, sized, allocators⟩ := placed
  obtain ⟨pushed, own', -⟩ := own.growSmall success
  have sized' := (sized.growSmall success).1
  obtain ⟨increment, count, size, -, -, -, rfl⟩ := growSmall_pushes success
  exact ⟨⟨_, _, own'⟩, sized', allocators⟩

section Cursors
variable {collect : Gc → Result Gc} {slots : Slot → Prop} {self : Nat}

/-- Replacing the struct of `self` changes its own slots. -/
theorem main_others {allocator : LocalAllocator} (stored : g'.localAllocator = store g.localAllocator self allocator)
    (same : allocator.overflowBlock = (g.localAllocator self).overflowBlock) (x : Slot)
    (different : x ≠ .main self) : x.block g' = x.block g := by
  cases x with
  | main other =>
    rw [Slot.block, stored, store_other _ _ _ _ fun h => different (congrArg Slot.main h)]
    rfl
  | overflow other =>
    rw [Slot.block, stored, store_apply]
    split
    · next own => rw [same, Slot.block, own]
    · rfl

theorem overflow_others {allocator : LocalAllocator}
    (stored : g'.localAllocator = store g.localAllocator self allocator)
    (same : allocator.block = (g.localAllocator self).block) (x : Slot)
    (different : x ≠ .overflow self) : x.block g' = x.block g := by
  cases x with
  | main other =>
    rw [Slot.block, stored, store_apply]
    split
    · next own => rw [same, Slot.block, own]
    · rfl
  | overflow other =>
    rw [Slot.block, stored, store_other _ _ _ _ fun h => different (congrArg Slot.overflow h)]
    rfl

/-- `LocalAllocator_initCursor` gives `self` a block of its own. -/
theorem Placed.initCursor (feeds : Feeds (Placed registered slots) collect)
    (placed : Placed registered slots g)
    (success : LocalAllocator.initCursor collect self g = .ok g') :
    Placed registered (fun x => slots x ∨ x = .main self) g' := by
  obtain ⟨item, taken, took, cases⟩ := initCursor_cases success
  obtain ⟨some, before, ⟨⟨free, recyclable, own⟩, sized, allocators⟩, shifted⟩ :=
    nextBlock_taken feeds placed took
  have loose : ∃ free recyclable, Owned.Loose taken slots free recyclable item ∧
      Sized taken.global ∧ taken.localAllocators = registered := by
    rcases shifted with shift | shift
    · obtain ⟨rest, -, loose⟩ := own.shiftRecyclable some shift
      refine ⟨free, rest, loose, ?_⟩
      rw [← (Prod.mk.inj shift).2]
      exact ⟨⟨sized.limit, sized.within⟩, allocators⟩
    · obtain ⟨rest, -, loose⟩ := own.shiftFree some shift
      refine ⟨rest, recyclable, loose, ?_⟩
      rw [← (Prod.mk.inj shift).2]
      exact ⟨⟨sized.limit, sized.within⟩, allocators⟩
  obtain ⟨free', recyclable', loose, sized', allocators'⟩ := loose
  rcases cases with ⟨-, rfl⟩ | ⟨-, hole, -, rfl⟩
  · exact ⟨⟨free', recyclable', loose.assign rfl rfl (by simp [Slot.block, onFreeBlock])
      (main_others rfl rfl)⟩, sized', allocators'⟩
  · exact ⟨⟨free', recyclable', loose.assign rfl rfl (by simp [Slot.block, onFirstHole, Gc.setLocal])
      (main_others rfl rfl)⟩, sized', allocators'⟩

/-- `LocalAllocator_initOverflowCursor` too. -/
theorem Placed.initOverflowCursor (feeds : Feeds (Placed registered slots) collect)
    (placed : Placed registered slots g)
    (success : LocalAllocator.initOverflowCursor collect self g = .ok g') :
    Placed registered (fun x => slots x ∨ x = .overflow self) g' := by
  obtain ⟨item, taken, took, rfl⟩ := initOverflowCursor_ok success
  obtain ⟨some, before, ⟨⟨free, recyclable, own⟩, sized, allocators⟩, shift⟩ :=
    nextFreeBlock_taken feeds placed took
  obtain ⟨rest, -, loose⟩ := own.shiftFree some shift
  refine ⟨⟨rest, recyclable, loose.assign rfl rfl
    (by simp [Slot.block, onOverflowBlock, Gc.setLocal]) (overflow_others rfl rfl)⟩, ?_, ?_⟩
  · rw [onOverflowBlock, Gc.setLocal, ← (Prod.mk.inj shift).2]
    exact ⟨sized.limit, sized.within⟩
  · rw [onOverflowBlock, Gc.setLocal, ← (Prod.mk.inj shift).2]
    exact allocators

end Cursors

theorem Placed.subset {slots slots' : Slot → Prop} (placed : Placed registered slots g)
    (fewer : ∀ x, slots' x → slots x) : Placed registered slots' g := by
  obtain ⟨⟨free, recyclable, own⟩, sized, allocators⟩ := placed
  exact ⟨⟨free, recyclable, own.subset fewer⟩, sized, allocators⟩

theorem Placed.congr {slots : Slot → Prop} (placed : Placed registered slots g)
    (next : ∀ b, (g'.block b).next = (g.block b).next)
    (sameFree : g'.global.freeList = g.global.freeList)
    (sameRecyclable : g'.global.recyclableList = g.global.recyclableList)
    (start : g'.global.smallHeapStart = g.global.smallHeapStart)
    (stop : g'.global.smallHeapStop = g.global.smallHeapStop)
    (same : ∀ x, slots x → x.block g' = x.block g) (sized : Sized g'.global)
    (sameAllocators : g'.localAllocators = g.localAllocators) : Placed registered slots g' := by
  obtain ⟨⟨free, recyclable, own⟩, -, allocators⟩ := placed
  exact ⟨⟨free, recyclable, own.congr next sameFree sameRecyclable start stop same⟩, sized,
    sameAllocators.trans allocators⟩

/-- Both steps of `GC_LocalAllocator_reset` during a collection. -/
theorem Placed.reset {slots : Slot → Prop} {self : Nat} (placed : Placed registered slots g)
    (success : LocalAllocator.reset noCollect self g = .ok g') :
    Placed registered (fun x => slots x ∨ x.owner = self) g' := by
  rw [LocalAllocator.reset] at success
  obtain ⟨middle, first, second⟩ := bind_eq_ok.mp success
  have placed₁ := placed.initCursor (feeds_noCollect fun _ _ h grown => h.growSmall grown) first
  have placed₂ := placed₁.initOverflowCursor
    (feeds_noCollect fun _ _ h grown => h.growSmall grown) second
  refine placed₂.subset fun x hx => ?_
  cases x with
  | main other => exact Or.inl (hx.imp_right fun own => congrArg Slot.main own)
  | overflow other =>
    rcases hx with old | own
    · exact Or.inl (Or.inl old)
    · exact Or.inr (congrArg Slot.overflow own)

theorem Placed.resets {slots : Slot → Prop} (todo : List Nat) (placed : Placed registered slots g)
    (success : todo.foldlM (fun g self => LocalAllocator.reset noCollect self g) g = .ok g') :
    Placed registered (fun x => slots x ∨ x.owner ∈ todo) g' := by
  induction todo generalizing g slots with
  | nil =>
    rw [← Except.ok.inj success]
    exact placed.subset fun x hx => hx.resolve_right List.not_mem_nil
  | cons self rest ih =>
    rw [List.foldlM_cons] at success
    obtain ⟨next, reset, others⟩ := bind_eq_ok.mp success
    refine (ih (placed.reset reset) others).subset fun x hx => ?_
    rw [List.mem_cons, ← or_assoc] at hx
    exact hx

/-- After a collection every registered allocator has two blocks of its own, whatever the
lists and slots were before. -/
theorem Spaced.collectOnce (spaced : Spaced registered g)
    (success : Source.collectOnce env g = .ok g') :
    Placed registered (fun x => x.owner ∈ registered) g' := by
  rw [collectOnce_eq] at success
  obtain ⟨finalized, collecting, rest⟩ := bind_eq_ok.mp success
  obtain ⟨swept, sweeping, rest⟩ := bind_eq_ok.mp rest
  obtain ⟨reset, resets, done⟩ := bind_eq_ok.mp rest
  rw [Collector.sweep] at sweeping
  obtain ⟨list, -, sweptEq⟩ := bind_eq_ok.mp sweeping
  obtain rfl := Except.ok.inj sweptEq
  have final : Spaced registered finalized :=
    (Spaced.spaceKeeps env registered).beforeSweep spaced collecting fun _ _ _ _ _ _ => trivial
  have noted : Spaced registered (Collector.noteSweep finalized) := ⟨final.heap, final.sized, final.allocators⟩
  have own := noted.recycleBlocks
  have rest := (recycleBlocks_spec (Collector.noteSweep finalized) noted.heap.mapped).rest
  have allocators : (GlobalAllocator.recycleBlocks (Collector.noteSweep finalized)).localAllocators =
      registered := by
    rw [rest]
    exact noted.allocators
  have sized : Sized (GlobalAllocator.recycleBlocks (Collector.noteSweep finalized)).global := by
    rw [rest]
    exact ⟨noted.sized.limit, noted.sized.within⟩
  have placed : Placed registered (fun _ => False) (Collector.withChunkList
      (GlobalAllocator.recycleBlocks (Collector.noteSweep finalized)) list) :=
    ⟨⟨_, _, own.congr (fun _ => rfl) rfl rfl rfl rfl fun _ none => none.elim⟩,
      ⟨sized.limit, sized.within⟩, allocators⟩
  rw [placed.allocators] at resets
  have all := placed.resets registered resets
  rw [← Except.ok.inj done]
  refine (all.subset fun x hx => Or.inr hx).congr (fun _ => rfl) rfl rfl rfl rfl (fun x _ => ?_)
    all.sized rfl
  cases x <;> rfl

/-- A collection keeps every registered slot in place. -/
theorem Placed.feeds (env : Env) (registered : List Nat) :
    Feeds (Placed registered fun x => x.owner ∈ registered) (Source.collectOnce env) :=
  ⟨fun _ _ placed ran => placed.spaced.collectOnce ran, fun _ _ placed grown => placed.growSmall grown⟩

end Collection

/-! ## Allocation and threads -/

section Threads
variable {env : Env} {registered : List Nat} {g g' : Gc}

theorem lineUpdate_next {header header' : Block} {block object : Nat}
    (success : lineUpdate header block object = .ok header') : header'.next = header.next := by
  obtain ⟨lineHeaders, rfl⟩ := lineUpdate_ok success
  rfl

/-- The slots of the others stay, and `self` keeps its blocks. -/
theorem setLocal_block {self : Nat} {allocator : LocalAllocator}
    (before : g'.localAllocator = store g.localAllocator self allocator)
    (main : allocator.block = (g.localAllocator self).block)
    (overflow : allocator.overflowBlock = (g.localAllocator self).overflowBlock) (x : Slot) :
    x.block g' = x.block g := by
  cases x with
  | main other =>
    rw [Slot.block, Slot.block, before, store_apply]
    split
    · next own => rw [main, own]
    · rfl
  | overflow other =>
    rw [Slot.block, Slot.block, before, store_apply]
    split
    · next own => rw [overflow, own]
    · rfl

theorem Placed.bumped {slots : Slot → Prop} {self rsize object : Nat}
    (placed : Placed registered slots g) (bumped : Bumped self rsize g object g') :
    Placed registered slots g' := by
  have sameNext : ∀ (b : Nat) (header : Block), header.next = (g.block b).next →
      ∀ x, (store g.block b header x).next = (g.block x).next := by
    intro b header next x
    rw [store_apply]
    split
    · next here => rw [next, here]
    · rfl
  cases bumped with
  | main room bump =>
    obtain ⟨header, updated, rfl⟩ := bump_ok bump
    exact placed.congr (sameNext _ _ (lineUpdate_next updated)) rfl rfl rfl rfl
      (fun x _ => setLocal_block (by rfl) (by rfl) (by rfl) x) placed.sized rfl
  | overflow room bump =>
    obtain ⟨header, updated, rfl⟩ := bump_ok bump
    exact placed.congr (sameNext _ _ (lineUpdate_next updated)) rfl rfl rfl rfl
      (fun x _ => setLocal_block (by rfl) (by rfl) (by rfl) x) placed.sized rfl

/-- The steps of an allocation. -/
theorem Placed.allocationKeeps (env : Env) (registered : List Nat) (self size rsize atomic : Nat) :
    AllocationKeeps (Placed registered fun x => x.owner ∈ registered) (collectOnce env) self
      size rsize atomic where
  block _ _ placed success := (placed.initCursor (Placed.feeds env registered) success).subset
    fun _ hx => Or.inl hx
  overflow _ _ placed success :=
    (placed.initOverflowCursor (Placed.feeds env registered) success).subset fun _ hx => Or.inl hx
  hole before placed some := by
    rw [LocalAllocator.findNextHole, if_pos some]
    exact placed.congr (fun _ => rfl) rfl rfl rfl rfl (fun x _ => setLocal_block (by rfl) (by rfl) (by rfl) x)
      placed.sized rfl
  object before after object placed bumped _ := by
    have kept := placed.bumped bumped
    refine kept.congr (fun _ => rfl) rfl rfl rfl rfl (fun x _ => ?_)
      ⟨kept.sized.limit, kept.sized.within⟩ rfl
    cases x <;> rfl
  nowhere _ _ placed bumped := placed.bumped bumped

/-- `GlobalAllocator_tryCollect` does not collect. -/
def NothingDue (g : Gc) : Prop :=
  g.collector.isCollecting = true ∨
    g.global.allocatedBytesSinceCollect < g.global.heapSize / g.global.freeSpaceDivisor

theorem NothingDue.tryCollect (nothing : NothingDue g) (collect : Gc → Result Gc) :
    GlobalAllocator.tryCollect collect g = GlobalAllocator.tryCollect noCollect g := by
  rw [GlobalAllocator.tryCollect, GlobalAllocator.tryCollect]
  rcases nothing with running | below
  · rw [if_pos running, if_pos running]
  · rw [if_pos below, if_pos below]

theorem nothingDue_of_declined {collect : Gc → Result Gc}
    (declined : GlobalAllocator.tryCollect collect g = .ok (false, g')) : NothingDue g := by
  rw [GlobalAllocator.tryCollect] at declined
  split at declined
  · next running => exact Or.inl running
  split at declined
  · cases declined
  split at declined
  · next below => exact Or.inr below
  · obtain ⟨after, -, done⟩ := bind_eq_ok.mp declined
    cases done

/-- With nothing due, the first block is taken without a collection. -/
theorem NothingDue.nextBlock (nothing : NothingDue g) (collect : Gc → Result Gc) :
    GlobalAllocator.nextBlock collect g = GlobalAllocator.nextBlock noCollect g := by
  have noRecyclable := @shiftRecyclable_null g
  have noFree := @shiftFree_null g
  rw [GlobalAllocator.nextBlock, GlobalAllocator.nextBlock]
  generalize GlobalAllocator.shiftRecyclable g = recycled at *
  obtain ⟨x, after⟩ := recycled
  dsimp only at noRecyclable ⊢
  split
  · rfl
  · next none =>
    rw [noRecyclable (Classical.not_not.mp none)]
    generalize GlobalAllocator.shiftFree g = shifted at *
    obtain ⟨y, after'⟩ := shifted
    dsimp only at noFree ⊢
    split
    · rfl
    · next none' => rw [noFree (Classical.not_not.mp none'), nothing.tryCollect collect]

theorem initOverflowCursor_noCollect {collect : Gc → Result Gc} {self : Nat}
    (without : g.global.freeList.isEmpty = false ∨ NothingDue g)
    (success : LocalAllocator.initOverflowCursor collect self g = .ok g') :
    LocalAllocator.initOverflowCursor noCollect self g = .ok g' := by
  have same : GlobalAllocator.nextFreeBlock noCollect g = GlobalAllocator.nextFreeBlock collect g := by
    have first : (GlobalAllocator.shiftFree g).1 = null → g.global.freeList.first = null := by
      simp only [GlobalAllocator.shiftFree, BlockList.shift]
      split
      · exact id
      · next none => exact fun _ => Classical.not_not.mp none
    have noFree := @shiftFree_null g
    rw [GlobalAllocator.nextFreeBlock, GlobalAllocator.nextFreeBlock]
    generalize GlobalAllocator.shiftFree g = shifted at *
    obtain ⟨item, after⟩ := shifted
    dsimp only at first noFree ⊢
    split
    · rfl
    · next none =>
      have empty := Classical.not_not.mp none
      rw [noFree empty]
      rcases without with some | nothing
      · rw [BlockList.isEmpty, first empty] at some
        cases some
      · rw [nothing.tryCollect collect]
  rw [LocalAllocator.initOverflowCursor, same]
  exact success

/-- Nothing is due, in a heap that respects its limit. -/
structure Quiet (g : Gc) : Prop where
  sized : Sized g.global
  nothing : NothingDue g

namespace Quiet

theorem growSmall (quiet : Quiet g) (success : GlobalAllocator.growSmall g = .ok g') : Quiet g' := by
  obtain ⟨sized, larger⟩ := quiet.sized.growSmall success
  refine ⟨sized, ?_⟩
  obtain ⟨increment, count, size, -, -, -, rfl⟩ := growSmall_pushes success
  rcases quiet.nothing with running | below
  · exact Or.inl running
  · exact Or.inr (Nat.lt_of_lt_of_le below (Nat.div_le_div_right larger))

theorem shifted {item : Nat} (quiet : Quiet g)
    (shift : GlobalAllocator.shiftRecyclable g = (item, g') ∨
      GlobalAllocator.shiftFree g = (item, g')) : Quiet g' := by
  obtain ⟨⟨limit, within⟩, nothing⟩ := quiet
  rcases shift with shift | shift
  · rw [← (Prod.mk.inj shift).2]
    exact ⟨⟨limit, within⟩, nothing⟩
  · rw [← (Prod.mk.inj shift).2]
    exact ⟨⟨limit, within⟩, nothing⟩

theorem growAndTakeFree {item : Nat} (quiet : Quiet g)
    (success : GlobalAllocator.growAndTakeFree g = .ok (item, g')) : Quiet g' := by
  obtain ⟨-, before, holds, shift⟩ := growAndTakeFree_taken
    (feeds_noCollect fun _ _ quiet grown => quiet.growSmall grown) quiet success
  exact holds.shifted (Or.inr shift)

end Quiet

theorem shiftRecyclable_empty (empty : g.global.recyclableList.isEmpty = true) :
    GlobalAllocator.shiftRecyclable g = (null, g) := by
  have none : g.global.recyclableList.first = null := by simpa [BlockList.isEmpty] using empty
  rw [GlobalAllocator.shiftRecyclable, BlockList.shift, if_neg (fun some => some none)]

theorem shiftFree_empty (empty : g.global.freeList.isEmpty = true) :
    GlobalAllocator.shiftFree g = (null, g) := by
  have none : g.global.freeList.first = null := by simpa [BlockList.isEmpty] using empty
  rw [GlobalAllocator.shiftFree, BlockList.shift, if_neg (fun some => some none)]

/-- When `GC_init_thread` takes its second block without a collection: two blocks are listed,
or nothing is due, or the first block is taken after a collection that leaves nothing due. -/
inductive SecondBlockReady (env : Env) (g : Gc) : Prop where
  | listed (free : g.global.freeList.isEmpty = false)
      (other : g.global.recyclableList.isEmpty = false ∨ (g.block g.global.freeList.first).next ≠ null)
  | early (nothing : NothingDue g)
  | late (noRecyclable : g.global.recyclableList.isEmpty = true)
      (noFree : g.global.freeList.isEmpty = true) (stores : StoresOnly env)
      (divided : 0 < g.global.heapSize / g.global.freeSpaceDivisor)

theorem SecondBlockReady.nextBlock {item : Nat} (ready : SecondBlockReady env g)
    (sized : Sized g.global)
    (success : GlobalAllocator.nextBlock (collectOnce env) g = .ok (item, g')) :
    g'.global.freeList.isEmpty = false ∨ NothingDue g' := by
  cases ready with
  | listed free other =>
    refine Or.inl ?_
    rw [GlobalAllocator.nextBlock] at success
    by_cases recyclable : g.global.recyclableList.isEmpty = true
    · have second : (g.block g.global.freeList.first).next ≠ null :=
        other.resolve_left (by rw [recyclable]; decide)
      have some : g.global.freeList.first ≠ null := by simpa [BlockList.isEmpty] using free
      rw [shiftRecyclable_empty recyclable] at success
      dsimp only at success
      rw [if_neg (not_not.mpr rfl), GlobalAllocator.shiftFree, BlockList.shift, if_pos some] at success
      dsimp only at success
      rw [if_pos some] at success
      simp only [Except.ok.injEq, Prod.mk.injEq] at success
      rw [← success.2]
      simpa [BlockList.isEmpty] using second
    · have some : g.global.recyclableList.first ≠ null := by simpa [BlockList.isEmpty] using recyclable
      rw [GlobalAllocator.shiftRecyclable, BlockList.shift, if_pos some] at success
      dsimp only at success
      rw [if_pos some] at success
      simp only [Except.ok.injEq, Prod.mk.injEq] at success
      rw [← success.2]
      exact free
  | early nothing =>
    rw [nothing.nextBlock] at success
    obtain ⟨-, before, holds, shift⟩ := nextBlock_taken
      (feeds_noCollect fun _ _ (quiet : Quiet _) grown => quiet.growSmall grown) ⟨sized, nothing⟩ success
    exact Or.inr (holds.shifted shift).nothing
  | late noRecyclable noFree stores divided =>
    refine Or.inr (Quiet.nothing ?_)
    rw [GlobalAllocator.nextBlock, shiftRecyclable_empty noRecyclable] at success
    dsimp only at success
    rw [if_neg (not_not.mpr rfl), shiftFree_empty noFree] at success
    dsimp only at success
    rw [if_neg (not_not.mpr rfl)] at success
    obtain ⟨⟨collected, middle⟩, mayCollect, rest⟩ := bind_eq_ok.mp success
    dsimp only at rest
    rcases tryCollect_cases mayCollect with ⟨rfl, rfl⟩ | ⟨rfl, ran⟩
    · have quiet : Quiet middle := ⟨sized, nothingDue_of_declined mayCollect⟩
      exact quiet.growAndTakeFree rest
    · -- the collection reset the counter
      have start : Rested False g.global.freeSpaceDivisor g.global.heapSize g :=
        ⟨sized, rfl, le_rfl, fun wrong => wrong.elim⟩
      have rested := start.collectOnce stores ran
      have quiet : Quiet middle := by
        refine ⟨rested.sized, Or.inr ?_⟩
        rw [rested.counter trivial, rested.divided]
        exact Nat.lt_of_lt_of_le divided (Nat.div_le_div_right rested.grown)
      rw [if_pos rfl] at rest
      generalize shift : GlobalAllocator.shiftRecyclable middle = shifted at *
      obtain ⟨x, after⟩ := shifted
      dsimp only at rest
      have quiet' : Quiet after := quiet.shifted (Or.inl shift)
      split at rest
      · simp only [Except.ok.injEq, Prod.mk.injEq] at rest
        exact rest.2 ▸ quiet'
      · exact quiet'.growAndTakeFree rest

theorem Placed.initThread {self : Nat} {contents : LocalAllocator}
    (placed : Placed registered (fun x => x.owner ∈ registered) g) (fresh : self ∉ registered)
    (ready : SecondBlockReady env g)
    (success : Source.initThread env self contents g = .ok g') :
    Placed (registered ++ [self]) (fun x => x.owner ∈ registered ++ [self]) g' := by
  rw [Source.initThread] at success
  obtain ⟨reset, resets, done⟩ := bind_eq_ok.mp success
  rw [LocalAllocator.reset] at resets
  obtain ⟨middle, first, second⟩ := bind_eq_ok.mp resets
  have set : Placed registered (fun x => x.owner ∈ registered) (g.setLocal self contents) := by
    refine placed.congr (fun _ => rfl) rfl rfl rfl rfl (fun x hx => ?_) placed.sized rfl
    have other : x.owner ≠ self := fun same => fresh (same ▸ hx)
    cases x with
    | main owner => exact congrArg LocalAllocator.block (store_other _ _ _ _ other)
    | overflow owner => exact congrArg LocalAllocator.overflowBlock (store_other _ _ _ _ other)
  have without : middle.global.freeList.isEmpty = false ∨ NothingDue middle := by
    obtain ⟨item, taken, took, cases⟩ := initCursor_cases first
    have ready' : SecondBlockReady env (g.setLocal self contents) := by
      cases ready with
      | listed free other => exact .listed free other
      | early nothing => exact .early nothing
      | late noRecyclable noFree stores divided => exact .late noRecyclable noFree stores divided
    have left := ready'.nextBlock placed.sized took
    rcases cases with ⟨-, rfl⟩ | ⟨-, hole, -, rfl⟩
    · exact left
    · exact left
  have placed₁ := set.initCursor (Placed.feeds env registered) first
  have placed₂ := placed₁.initOverflowCursor (feeds_noCollect fun _ _ h grown => h.growSmall grown)
    (initOverflowCursor_noCollect without second)
  obtain ⟨⟨free, recyclable, own⟩, sized, allocators⟩ := placed₂
  rw [← Except.ok.inj done]
  refine ⟨⟨free, recyclable, (own.subset fun x hx => ?_).congr (fun _ => rfl) rfl rfl rfl rfl
    fun x _ => ?_⟩, sized, ?_⟩
  · rw [List.mem_append, List.mem_singleton] at hx
    rcases hx with old | new
    · exact Or.inl (Or.inl old)
    · cases x with
      | main owner => exact Or.inl (Or.inr (congrArg Slot.main new))
      | overflow owner => exact Or.inr (congrArg Slot.overflow new)
  · cases x <;> rfl
  · exact congrArg (· ++ [self]) allocators

/-- The steps of any number of threads, one at a time. `GC_init_thread` is called in states
that are `ready` for it, with a struct that no registered allocator uses. -/
inductive ThreadStep (env : Env) (ready : Gc → Prop) (g : Gc) : Gc → Prop where
  | initThread {g' : Gc} (self : Nat) (contents : LocalAllocator) (fresh : self ∉ g.localAllocators)
      (here : ready g) (success : initThread env self contents g = .ok g') : ThreadStep env ready g g'
  | deinitThread (self : Nat) : ThreadStep env ready g (deinitThread self g)
  | allocate {g' : Gc} {pointer : Nat} (self size atomic : Nat)
      (member : self ∈ g.localAllocators)
      (success : LocalAllocator.allocateSmall env (collectOnce env) self size atomic g =
        .ok (pointer, g')) : ThreadStep env ready g g'
  | collect {g' : Gc} (success : collectOnce env g = .ok g') : ThreadStep env ready g g'
  | registerFinalizer {g' : Gc} (pointer callback : Nat)
      (success : registerFinalizer pointer callback g = .ok g') : ThreadStep env ready g g'
  /-- The client writes, and another thread runs. -/
  | client (memory : Memory) (current : Nat) :
      ThreadStep env ready g { g with memory := memory, current := current }

/-- The runs from a given state. -/
inductive ThreadRun (env : Env) (ready : Gc → Prop) (start : Gc) : Gc → Prop where
  | start : ThreadRun env ready start start
  | step {g g' : Gc} (run : ThreadRun env ready start g) (step : ThreadStep env ready g g') :
      ThreadRun env ready start g'

/-- The step lemma. -/
theorem ThreadStep.placed (step : ThreadStep env (SecondBlockReady env) g g')
    (placed : Placed g.localAllocators (Registered g) g) :
    Placed g'.localAllocators (Registered g') g' := by
  have conclude : ∀ {registered : List Nat} {g : Gc},
      Placed registered (fun x => x.owner ∈ registered) g →
        Placed g.localAllocators (Registered g) g := by
    intro registered g placed
    obtain rfl := placed.allocators
    exact placed
  cases step with
  | initThread self contents fresh here success => exact conclude (placed.initThread fresh here success)
  | deinitThread self =>
    obtain ⟨⟨free, recyclable, own⟩, sized, -⟩ := placed
    refine ⟨⟨free, recyclable, (own.subset fun x hx => ?_).congr (fun _ => rfl) rfl rfl rfl rfl
      fun x _ => ?_⟩, sized, rfl⟩
    · exact List.mem_of_mem_erase hx
    · cases x <;> rfl
  | allocate self size atomic member success =>
    rw [LocalAllocator.allocateSmall] at success
    obtain ⟨-, -, rest⟩ := bind_eq_ok.mp success
    exact conclude (allocateSmallLoop_keeps (Placed.allocationKeeps env _ _ _ _ _) _ placed rest)
  | collect success => exact conclude (placed.spaced.collectOnce success)
  | registerFinalizer pointer callback success =>
    rw [Source.registerFinalizer, GlobalAllocator.registerFinalizer] at success
    obtain ⟨inserted, insert, done⟩ := bind_eq_ok.mp success
    obtain ⟨finalizers, -, same⟩ := bind_eq_ok.mp insert
    rw [← Except.ok.inj done, ← Except.ok.inj same]
    refine placed.congr (fun _ => rfl) rfl rfl rfl rfl (fun x _ => ?_)
      ⟨placed.sized.limit, placed.sized.within⟩ rfl
    cases x <;> rfl
  | client memory current =>
    refine placed.congr (fun _ => rfl) rfl rfl rfl rfl (fun x _ => ?_) placed.sized rfl
    cases x <;> rfl

/-- The run lemma. -/
theorem ThreadRun.placed (run : ThreadRun env (SecondBlockReady env) g g')
    (placed : Placed g.localAllocators (Registered g) g) :
    Placed g'.localAllocators (Registered g') g' := by
  induction run with
  | start => exact placed
  | step _ step ih => exact step.placed ih

/-- `GC_GlobalAllocator_init` puts every block on the free list. -/
theorem init_owned {smallMap largeMap memoryLimit freeSpaceDivisor initialSize : Nat}
    {block : Nat → Block} {chunk : Nat → Chunk}
    (mapped : Mapped smallMap largeMap memoryLimit initialSize)
    (init : GlobalAllocator.init smallMap largeMap memoryLimit freeSpaceDivisor initialSize block
      chunk = .ok (g.block, g.global)) (none : g.localAllocators = []) :
    Owned g (Registered g) ((List.range (initialSize / blockSize)).map fun i =>
      GlobalAllocator.mapAndAlign smallMap initialSize + i * blockSize) [] ∧ Sized g.global := by
  obtain ⟨enough, multiple, freeList, finalizers, pushed, -, global⟩ := init_ok init
  have limit := mapped.limit_lt
  have within := mapped.within
  have positive : 0 < initialSize := by
    simp only [blockSize] at enough
    omega
  obtain ⟨-, above, -⟩ := mapAndAlign_spec smallMap multiple positive
    (by simp only [sizeModulus]; omega)
  have small := mapped.small.1
  generalize GlobalAllocator.mapAndAlign smallMap initialSize = start at *
  have new := @mem_newBlocks start (initialSize / blockSize)
  have nodup := newBlocks_nodup start (initialSize / blockSize)
  generalize ((List.range (initialSize / blockSize)).map fun i => start + i * blockSize) = items at *
  have notNull : null ∉ items := fun member => by
    obtain ⟨i, -, zero⟩ := new member
    simp only [null] at zero
    omega
  obtain ⟨listed, -⟩ := pushBlocks_listed items (Listed.empty block)
    (fun b _ => List.not_mem_nil) nodup notNull
  rw [pushed, List.nil_append] at listed
  have inHeap : ∀ b ∈ items, b ∈ g.global.blocks := by
    intro b member
    obtain ⟨i, bound, rfl⟩ := new member
    rw [global]
    refine mem_blocks.mpr ⟨i, rfl, ?_⟩
    simp only [blockSize] at *
    omega
  have sized : Sized g.global := by
    rw [global]
    refine ⟨limit, ?_⟩
    dsimp only
    omega
  have noSlots : ∀ x, ¬ Registered g x := fun x member => by
    rw [Registered, none] at member
    exact List.not_mem_nil member
  refine ⟨⟨?_, ?_, ?_, ?_, fun _ _ => List.not_mem_nil, fun x hx => (noSlots x hx).elim,
    fun x _ hx => (noSlots x hx).elim⟩, sized⟩
  · rw [global]
    refine ⟨by dsimp only; omega, by dsimp only; omega, ?_⟩
    dsimp only
    rw [Nat.add_sub_cancel_left]
    exact multiple
  · rw [global]
    exact listed
  · rw [global]
    exact Listed.empty _
  · rintro b (member | wrong)
    · exact inHeap b member
    · exact absurd wrong List.not_mem_nil

theorem init_placed {smallMap largeMap memoryLimit freeSpaceDivisor initialSize : Nat}
    {block : Nat → Block} {chunk : Nat → Chunk}
    (mapped : Mapped smallMap largeMap memoryLimit initialSize)
    (init : GlobalAllocator.init smallMap largeMap memoryLimit freeSpaceDivisor initialSize block
      chunk = .ok (g.block, g.global)) (none : g.localAllocators = []) :
    Placed g.localAllocators (Registered g) g :=
  have ⟨own, sized⟩ := init_owned mapped init none
  ⟨⟨_, _, own⟩, sized, rfl⟩

/-- In every run of threads, each block has one place. -/
theorem blocks_owned_exclusively {smallMap largeMap memoryLimit freeSpaceDivisor initialSize : Nat}
    {block : Nat → Block} {chunk : Nat → Chunk}
    (mapped : Mapped smallMap largeMap memoryLimit initialSize)
    (init : GlobalAllocator.init smallMap largeMap memoryLimit freeSpaceDivisor initialSize block
      chunk = .ok (g.block, g.global)) (none : g.localAllocators = [])
    (run : ThreadRun env (SecondBlockReady env) g g') : Exclusive g' :=
  (run.placed (init_placed mapped init none)).owned

/-- Four blocks with a third of the heap between two collections. -/
def fourBlocks : Result ((Nat → Block) × GlobalAllocator) :=
  GlobalAllocator.init 0x100000 0x10000000 (2 ^ 26) 3 (4 * blockSize) (fun _ => Block.init)
    (fun _ => ⟨null, 0, ⟨0, 0, 0⟩⟩)

theorem fourBlocks_mapped : Mapped 0x100000 0x10000000 (2 ^ 26) (4 * blockSize) :=
  ⟨by decide, by decide, by decide, by decide⟩

/-- A thread starts while no collection is due. -/
def quietThread (self : Nat) (g : Gc) : Result Gc := do
  check (self ∉ g.localAllocators ∧ g.global.allocatedBytesSinceCollect <
    g.global.heapSize / g.global.freeSpaceDivisor) "nothing is due"
  initThread sampleEnv self ⟨0, 0, 0, 0, 0, 0, 0⟩ g

/-- A registered thread allocates an object. -/
def threadAllocates (self size : Nat) (g : Gc) : Result Gc := do
  check (self ∈ g.localAllocators) "the thread is registered"
  let (_, g) ← LocalAllocator.allocateSmall sampleEnv (collectOnce sampleEnv) self size 0 g
  .ok g

/-- Two threads start and allocate, a collection keeps nothing, and both go on. -/
def twoThreads (heap : (Nat → Block) × GlobalAllocator) : Result Gc := do
  let g ← quietThread 16 (bareGc heap.1 heap.2)
  let g ← quietThread 64 g
  let g ← threadAllocates 16 1000 g
  let g ← threadAllocates 64 240 g
  let g ← collectOnce sampleEnv g
  let g ← threadAllocates 16 8000 g
  threadAllocates 64 8000 g

section Sample
variable {start g g' : Gc} {self size : Nat}

theorem ThreadRun.quietThread (run : ThreadRun sampleEnv (SecondBlockReady sampleEnv) start g)
    (success : quietThread self g = .ok g') :
    ThreadRun sampleEnv (SecondBlockReady sampleEnv) start g' := by
  obtain ⟨_, checked, starts⟩ := bind_eq_ok.mp success
  obtain ⟨fresh, below⟩ := of_decide_eq_true (check_eq_ok.mp checked)
  exact run.step (.initThread self _ fresh (.early (Or.inr below)) starts)

theorem ThreadRun.threadAllocates {ready : Gc → Prop} (run : ThreadRun sampleEnv ready start g)
    (success : threadAllocates self size g = .ok g') : ThreadRun sampleEnv ready start g' := by
  obtain ⟨_, member, rest⟩ := bind_eq_ok.mp success
  obtain ⟨⟨pointer, after⟩, allocated, done⟩ := bind_eq_ok.mp rest
  obtain rfl := Except.ok.inj done
  exact run.step (.allocate self size 0 (of_decide_eq_true (check_eq_ok.mp member)) allocated)

end Sample

theorem twoThreads_exclusive : ∃ g g', fourBlocks = .ok (g.block, g.global) ∧
    ThreadRun sampleEnv (SecondBlockReady sampleEnv) g g' ∧ g'.localAllocators = [16, 64] ∧
    Exclusive g' := by
  have checked : (fourBlocks >>= fun heap => (twoThreads heap).map fun last => (heap, last)).map
      (fun result => decide (result.2.localAllocators = [16, 64])) = .ok true := by
    decide +kernel
  obtain ⟨⟨heap, g'⟩, ran, both⟩ := map_eq_ok checked
  obtain ⟨heap', started, rest⟩ := bind_eq_ok.mp ran
  obtain ⟨last, threads, same⟩ := map_eq_ok rest
  obtain ⟨rfl, rfl⟩ := Prod.mk.inj same
  rw [twoThreads] at threads
  obtain ⟨g₁, first, threads⟩ := bind_eq_ok.mp threads
  obtain ⟨g₂, second, threads⟩ := bind_eq_ok.mp threads
  obtain ⟨g₃, third, threads⟩ := bind_eq_ok.mp threads
  obtain ⟨g₄, fourth, threads⟩ := bind_eq_ok.mp threads
  obtain ⟨g₅, collects, threads⟩ := bind_eq_ok.mp threads
  obtain ⟨g₆, fifth, sixth⟩ := bind_eq_ok.mp threads
  have before := (ThreadRun.start.quietThread first).quietThread second
  have full := (before.threadAllocates third).threadAllocates fourth
  have run := ((full.step (.collect collects)).threadAllocates fifth).threadAllocates sixth
  refine ⟨bareGc heap'.1 heap'.2, last, started, run, of_decide_eq_true both, ?_⟩
  rw [fourBlocks] at started
  exact blocks_owned_exclusively fourBlocks_mapped started rfl run

/-- Three blocks, and a divisor that makes a collection due after 196 bytes. -/
def threeBlocks : Result ((Nat → Block) × GlobalAllocator) :=
  GlobalAllocator.init 0x100000 0x10000000 (2 ^ 26) 1000 (3 * blockSize) (fun _ => Block.init)
    (fun _ => ⟨null, 0, ⟨0, 0, 0⟩⟩)

/-- A thread, an allocation, and a second thread. -/
def secondThread (heap : (Nat → Block) × GlobalAllocator) : Result (Gc × Gc) := do
  let g ← initThread sampleEnv 16 ⟨0, 0, 0, 0, 0, 0, 0⟩ (bareGc heap.1 heap.2)
  let (_, before) ← LocalAllocator.allocateSmall sampleEnv (collectOnce sampleEnv) 16 1000 0 g
  let after ← initThread sampleEnv 64 ⟨0, 0, 0, 0, 0, 0, 0⟩ before
  .ok (before, after)

/-- The second thread collects between its two blocks and holds one block twice. -/
theorem secondThread_holds_one_block_twice : ∃ g g', threeBlocks = .ok (g.block, g.global) ∧
    g.localAllocators = [] ∧ ThreadRun sampleEnv (fun _ => True) g g' ∧ ¬ Exclusive g' := by
  have checked : (threeBlocks >>= secondThread).map (fun run =>
      decide (run.1.localAllocators = [16]) && decide (64 ∈ run.2.localAllocators) &&
        decide ((run.2.localAllocator 64).block = (run.2.localAllocator 64).overflowBlock)) =
      .ok true := by
    decide +kernel
  obtain ⟨⟨g₂, g'⟩, run, facts⟩ := map_eq_ok checked
  rw [Bool.and_eq_true, Bool.and_eq_true, decide_eq_true_eq, decide_eq_true_eq,
    decide_eq_true_eq] at facts
  obtain ⟨⟨before, member⟩, same⟩ := facts
  obtain ⟨heap, started, threads⟩ := bind_eq_ok.mp run
  rw [secondThread] at threads
  obtain ⟨g₁, first, rest⟩ := bind_eq_ok.mp threads
  obtain ⟨⟨pointer, g₃⟩, allocated, last⟩ := bind_eq_ok.mp rest
  obtain ⟨g₄, second, done⟩ := bind_eq_ok.mp last
  simp only [Except.ok.injEq, Prod.mk.injEq] at done
  obtain ⟨rfl, rfl⟩ := done
  have member₁ : 16 ∈ g₁.localAllocators := by
    rw [initThread] at first
    obtain ⟨reset, -, same⟩ := bind_eq_ok.mp first
    rw [← Except.ok.inj same]
    exact List.mem_append_right _ List.mem_cons_self
  have run₁ : ThreadRun sampleEnv (fun _ => True) (bareGc heap.1 heap.2) g₁ :=
    .step .start (.initThread 16 ⟨0, 0, 0, 0, 0, 0, 0⟩ List.not_mem_nil trivial first)
  have run₂ : ThreadRun sampleEnv (fun _ => True) (bareGc heap.1 heap.2) g₃ :=
    .step run₁ (.allocate 16 1000 0 member₁ allocated)
  have run₃ : ThreadRun sampleEnv (fun _ => True) (bareGc heap.1 heap.2) g₄ :=
    .step run₂ (.initThread 64 ⟨0, 0, 0, 0, 0, 0, 0⟩ (by rw [before]; decide) trivial second)
  refine ⟨bareGc heap.1 heap.2, g₄, started, rfl, run₃, ?_⟩
  rintro ⟨free, recyclable, own⟩
  have one := own.distinct (.main 64) (.overflow 64) member member same
  cases one

end Threads

end ImmixGc.Guarantees
