import ImmixGc.Guarantees.CollectionHistory
import ImmixGc.Guarantees.SmallHeap

/-!
# Runs of the small heap

The steps of `LocalAllocator_initCursor`, `GC_LocalAllocator_allocateSmall` and
`GC_collect_once` keep the invariant of the small heap, as long as `initCursor` takes no
free block while `next` is set: that branch leaves `next` as it was, and the next hole is
then one of another block.
-/
namespace ImmixGc.Guarantees
open Source Foundation

section Steps
variable {setup : Setup} {slots slots' : Slot → Prop} {g g' : Gc} {free recyclable : List Nat}

/-! ## Growth -/

theorem HeapBounds.growSmall {smallMap largeMap : Nat}
    (heap : HeapBounds smallMap largeMap g.global)
    (success : GlobalAllocator.growSmall g = .ok g') :
    HeapBounds smallMap largeMap g'.global ∧ g'.memory = g.memory ∧ g'.history = g.history ∧
      g'.localAllocator = g.localAllocator ∧ g'.localAllocators = g.localAllocators ∧
      g'.global.finalizers = g.global.finalizers ∧ ∀ a, InLarge g.global a → InLarge g'.global a := by
  rw [growSmall_eq heap.bounds] at success
  split at success
  · cases success
  next room =>
  obtain ⟨-, multiple⟩ := smallIncrement_spec g
  rw [← Except.ok.inj success, grownSmall]
  clear success
  generalize smallIncrement g = increment at *
  obtain ⟨⟨small, total, limit, start⟩, large, smallStart, smallStop, whole, largeStart, largeStop,
    disjoint⟩ := heap
  refine ⟨⟨⟨?_, ?_, limit, start⟩, large, smallStart, ?_, ?_, largeStart, largeStop, disjoint⟩,
    rfl, rfl, rfl, rfl, rfl, fun _ inLarge => inLarge⟩
  · exact small.trans (Nat.le_add_right _ _)
  · dsimp only
    omega
  · dsimp only
    omega
  · simp only [blockSize] at *
    omega

theorem SameBlock.firstFreeLine {x y : Block} (same : SameBlock x y) (b : Nat) :
    x.firstFreeLine b = y.firstFreeLine b := by
  rw [Block.firstFreeLine, Block.firstFreeLine, same.firstFreeLineIndex]

theorem SameBlock.isRecyclable {x y : Block} (same : SameBlock x y) :
    x.isRecyclable = y.isRecyclable := by
  rw [Block.isRecyclable, Block.isRecyclable, same.flag]

/-- `slot` has the same block, interval and holes in both states. -/
structure SameSlot (g g' : Gc) (x : Slot) : Prop where
  block : x.block g' = x.block g
  cursor : x.cursor g' = x.cursor g
  limit : x.limit g' = x.limit g
  next : x.next g' = x.next g

theorem SameSlot.of_local {x : Slot}
    (same : g'.localAllocator x.owner = g.localAllocator x.owner) : SameSlot g g' x := by
  cases x with
  | main self =>
    exact ⟨congrArg LocalAllocator.block same, congrArg LocalAllocator.cursor same,
      congrArg LocalAllocator.limit same, congrArg LocalAllocator.next same⟩
  | overflow self =>
    exact ⟨congrArg LocalAllocator.overflowBlock same, congrArg LocalAllocator.overflowCursor same,
      congrArg LocalAllocator.overflowLimit same, rfl⟩

/-- A slot whose struct fields stay offers what it did, if the block in it stays. -/
theorem SameSlot.viewed {x : Slot} (same : SameSlot g g' x)
    (view : Viewed g' (x.block g) (x.cursor g) (x.limit g) (x.next g)) :
    Viewed g' (x.block g') (x.cursor g') (x.limit g') (x.next g') := by
  rw [same.block, same.cursor, same.limit, same.next]
  exact view

theorem Stock.growSmall (stock : Stock setup slots g)
    (success : GlobalAllocator.growSmall g = .ok g') : Stock setup slots g' := by
  obtain ⟨free, recyclable, own, stocked⟩ := stock
  obtain ⟨pushed, own', new, kept, same⟩ := own.growSmall success
  obtain ⟨bounds, memory, history, locals, allocators, finalizers, large⟩ :=
    stocked.shape.bounds.growSmall success
  have old : ∀ b, b ∉ pushed → SameBlock (g'.block b) (g.block b) := by
    intro b outside
    have here := same b
    rwa [if_neg outside] at here
  have oldView : ∀ {b cursor limit next}, b ∉ pushed → Viewed g b cursor limit next →
      Viewed g' b cursor limit next := fun outside view =>
    view.frame (fun clear => history ▸ clear) (fun _ _ _ => by rw [memory]) (old _ outside).lineHeaders
      fun a member _ => history ▸ member
  have newView : ∀ b ∈ g'.global.blocks, b ∉ g.global.blocks →
      Viewed g' b (Block.start b) (Block.stop b) null := by
    intro b inHeap outside
    refine .fresh (bounds.aligned inHeap) ?_ fun a member here => ?_
    · by_cases member : b ∈ pushed
      · have here := same b
        rw [if_pos member] at here
        exact here.lineHeaders
      · exact (old b member).lineHeaders.trans (stocked.shape.beyond b outside)
    · rw [history] at member
      rcases stocked.shape.homes a member with home | inLarge
      · exact outside (here ▸ home)
      · exact (large a inLarge).from_ne bounds inHeap here
  have added : ∀ b ∈ pushed, b ∈ g'.global.blocks := fun b member =>
    own'.listed b (Or.inl (List.mem_append_right _ member))
  refine ⟨_, _, own', ⟨bounds, allocators.trans stocked.shape.allocators, fun b outside => ?_,
    fun a member => ?_, ?_, finalizers ▸ stocked.shape.finalizers⟩, fun b inHeap => ?_, fun b member => ?_,
    fun b member => ?_, fun x hx => ?_⟩
  · rw [(old b fun member => outside (added b member)).lineHeaders]
    exact stocked.shape.beyond b fun member => outside (kept b member)
  · exact (stocked.shape.homes a (history ▸ member)).imp (kept _) (large a)
  · rw [history]
    exact stocked.shape.apart
  · by_cases member : b ∈ g.global.blocks
    · exact oldView (fun wrong => new b wrong member) (stocked.full b member)
    · exact (newView b inHeap member).full
  · rcases List.mem_append.mp member with before | grown
    · obtain ⟨isFree, view⟩ := stocked.free b before
      have outside : b ∉ pushed := fun wrong => new b wrong (own.listed b (Or.inl before))
      exact ⟨(old b outside).isFree.trans isFree, oldView outside view⟩
    · have here := same b
      rw [if_pos grown] at here
      exact ⟨here.isFree, newView b (added b grown) (new b grown)⟩
  · obtain ⟨isRecyclable, hole, first, some, view⟩ := stocked.recyclable b member
    have outside : b ∉ pushed := fun wrong => new b wrong (own.listed b (Or.inr member))
    exact ⟨(old b outside).isRecyclable.trans isRecyclable, hole,
      ((old b outside).firstFreeLine b).trans first, some, oldView outside view⟩
  · refine (SameSlot.of_local (by rw [locals])).viewed (oldView (fun wrong => ?_) (stocked.held x hx))
    exact new _ wrong (own.held x hx).1

/-! ## Taking blocks -/

/-- Shorter lists and fewer slots, in a state with the same memory, headers and objects. -/
theorem Stocked.congr (stocked : Stocked setup slots g free recyclable)
    {free' recyclable' : List Nat} (same : space g'.global = space g.global)
    (allocators : g'.localAllocators = g.localAllocators) (memory : g'.memory = g.memory)
    (headers : g'.block = g.block) (history : NoNew g.history g'.history)
    (finalizers : g'.global.finalizers = g.global.finalizers)
    (fewerFree : ∀ b ∈ free', b ∈ free) (fewerRecyclable : ∀ b ∈ recyclable', b ∈ recyclable)
    (fewer : ∀ x, slots' x → slots x ∧ SameSlot g g' x) :
    Stocked setup slots' g' free' recyclable' := by
  have view : ∀ {b cursor limit next}, Viewed g b cursor limit next → Viewed g' b cursor limit next :=
    fun view => view.frame history.flag (fun _ _ _ => by rw [memory]) (by rw [headers])
      fun a member _ => history.live.subset member
  refine ⟨stocked.shape.congr same allocators (fun _ _ => by rw [headers]) history.live finalizers,
    fun b inHeap => ?_, fun b member => ?_, fun b member => ?_, fun x hx => ?_⟩
  · rw [blocks_congr same] at inHeap
    exact view (stocked.full b inHeap)
  · obtain ⟨isFree, offers⟩ := stocked.free b (fewerFree b member)
    rw [headers]
    exact ⟨isFree, view offers⟩
  · obtain ⟨isRecyclable, hole, first, some, offers⟩ := stocked.recyclable b (fewerRecyclable b member)
    rw [headers]
    exact ⟨isRecyclable, hole, first, some, view offers⟩
  · obtain ⟨old, sameSlot⟩ := fewer x hx
    exact sameSlot.viewed (view (stocked.held x old))

/-- A slot gets an interval and holes. -/
theorem Stocked.assign (stocked : Stocked setup slots g free recyclable) {slot : Slot}
    (same : space g'.global = space g.global)
    (allocators : g'.localAllocators = g.localAllocators) (memory : g'.memory = g.memory)
    (headers : g'.block = g.block) (history : NoNew g.history g'.history)
    (finalizers : g'.global.finalizers = g.global.finalizers)
    (others : ∀ x, x ≠ slot → SameSlot g g' x)
    (offers : Viewed g' (slot.block g') (slot.cursor g') (slot.limit g') (slot.next g')) :
    Stocked setup (fun x => slots x ∨ x = slot) g' free recyclable := by
  have kept : Stocked setup (fun x => slots x ∧ x ≠ slot) g' free recyclable :=
    stocked.congr same allocators memory headers history finalizers (fun _ member => member)
      (fun _ member => member) fun x hx => ⟨hx.1, others x hx.2⟩
  refine ⟨kept.shape, kept.full, kept.free, kept.recyclable, fun x hx => ?_⟩
  by_cases here : x = slot
  · exact here ▸ offers
  · exact kept.held x ⟨hx.resolve_right here, here⟩

/-- Replacing the struct of `self` changes its own slots. -/
theorem sameSlot_main {self : Nat} {allocator : LocalAllocator}
    (stored : g'.localAllocator = store g.localAllocator self allocator)
    (same : allocator.overflowBlock = (g.localAllocator self).overflowBlock ∧
      allocator.overflowCursor = (g.localAllocator self).overflowCursor ∧
      allocator.overflowLimit = (g.localAllocator self).overflowLimit) (x : Slot)
    (different : x ≠ .main self) : SameSlot g g' x := by
  by_cases own : x.owner = self
  · cases x with
    | main other => exact absurd (congrArg Slot.main own) different
    | overflow other =>
      obtain rfl : other = self := own
      have struct : g'.localAllocator other = allocator := by rw [stored, store_same]
      refine ⟨?_, ?_, ?_, rfl⟩
      · rw [Slot.block, struct, same.1]
        rfl
      · rw [Slot.cursor, struct, same.2.1]
        rfl
      · rw [Slot.limit, struct, same.2.2]
        rfl
  · exact .of_local (by rw [stored, store_other _ _ _ _ own])

theorem sameSlot_overflow {self : Nat} {allocator : LocalAllocator}
    (stored : g'.localAllocator = store g.localAllocator self allocator)
    (same : allocator.block = (g.localAllocator self).block ∧
      allocator.cursor = (g.localAllocator self).cursor ∧
      allocator.limit = (g.localAllocator self).limit ∧
      allocator.next = (g.localAllocator self).next) (x : Slot)
    (different : x ≠ .overflow self) : SameSlot g g' x := by
  by_cases own : x.owner = self
  · cases x with
    | overflow other => exact absurd (congrArg Slot.overflow own) different
    | main other =>
      obtain rfl : other = self := own
      have struct : g'.localAllocator other = allocator := by rw [stored, store_same]
      refine ⟨?_, ?_, ?_, ?_⟩
      · rw [Slot.block, struct, same.1]
        rfl
      · rw [Slot.cursor, struct, same.2.1]
        rfl
      · rw [Slot.limit, struct, same.2.2.1]
        rfl
      · rw [Slot.next, struct, same.2.2.2]
        rfl
  · exact .of_local (by rw [stored, store_other _ _ _ _ own])

/-- The invariant, as long as no free block was taken while `next` was set. -/
def Kept (setup : Setup) (slots : Slot → Prop) (g : Gc) : Prop :=
  g.history.staleNext = true ∨ Stock setup slots g

/-- A block taken off the free list. -/
theorem Stocked.shiftFree (stocked : Stocked setup slots g free recyclable)
    (own : Owned g slots free recyclable) {item : Nat} (some : item ≠ null)
    (shift : GlobalAllocator.shiftFree g = (item, g')) :
    ∃ rest, Owned.Loose g' slots rest recyclable item ∧ Stocked setup slots g' rest recyclable ∧
      (g'.block item).isFree = true ∧ Viewed g' item (Block.start item) (Block.stop item) null := by
  obtain ⟨rest, rfl, loose⟩ := own.shiftFree some shift
  rw [GlobalAllocator.shiftFree, Prod.mk.injEq] at shift
  obtain ⟨-, rfl⟩ := shift
  obtain ⟨isFree, view⟩ := stocked.free item List.mem_cons_self
  exact ⟨rest, loose, stocked.congr rfl rfl rfl rfl (.refl _) rfl (fun _ => List.mem_cons_of_mem _)
    (fun _ member => member) fun x hx => ⟨hx, .of_local rfl⟩, isFree,
    view.frame id (fun _ _ _ => rfl) rfl fun _ member _ => member⟩

/-- A block taken off the recyclable list. -/
theorem Stocked.shiftRecyclable (stocked : Stocked setup slots g free recyclable)
    (own : Owned g slots free recyclable) {item : Nat} (some : item ≠ null)
    (shift : GlobalAllocator.shiftRecyclable g = (item, g')) :
    ∃ rest, Owned.Loose g' slots free rest item ∧ Stocked setup slots g' free rest ∧
      (g'.block item).isRecyclable = true ∧ ∃ hole, (g'.block item).firstFreeLine item = .ok hole ∧
        hole ≠ null ∧ Viewed g' item (Block.start item) (Block.start item) hole := by
  obtain ⟨rest, rfl, loose⟩ := own.shiftRecyclable some shift
  rw [GlobalAllocator.shiftRecyclable, Prod.mk.injEq] at shift
  obtain ⟨-, rfl⟩ := shift
  obtain ⟨isRecyclable, hole, first, positive, view⟩ := stocked.recyclable item List.mem_cons_self
  exact ⟨rest, loose, stocked.congr rfl rfl rfl rfl (.refl _) rfl (fun _ member => member)
    (fun _ => List.mem_cons_of_mem _) fun x hx => ⟨hx, .of_local rfl⟩, isRecyclable, hole, first,
    positive, view.frame id (fun _ _ _ => rfl) rfl fun _ member _ => member⟩

theorem notFree_of_recyclable {x : Block} (isRecyclable : x.isRecyclable = true) :
    ¬ x.isFree = true := by
  rw [Block.isRecyclable, beq_iff_eq] at isRecyclable
  rw [Block.isFree, isRecyclable]
  decide

section Cursors
variable {collect : Gc → Result Gc} {self : Nat}

/-- `LocalAllocator_initCursor`. -/
theorem Kept.initCursor (feeds : Feeds (Kept setup slots) collect) (kept : Kept setup slots g)
    (success : LocalAllocator.initCursor collect self g = .ok g') :
    Kept setup (fun x => slots x ∨ x = .main self) g' := by
  obtain ⟨item, taken, took, placed⟩ := initCursor_cases success
  obtain ⟨some, before, holds, shifted⟩ := nextBlock_taken feeds kept took
  have history := shift_history shifted
  rcases holds with stale | ⟨free, recyclable, own, stocked⟩
  · left
    rcases placed with ⟨-, rfl⟩ | ⟨-, hole, -, rfl⟩
    · simp [onFreeBlock, history, stale]
    · simp [onFirstHole, Gc.setLocal, history, stale]
  rcases shifted with shift | shift
  · obtain ⟨rest, loose, stocked', isRecyclable, first, opens, positive, view⟩ :=
      stocked.shiftRecyclable own some shift
    rcases placed with ⟨isFree, -⟩ | ⟨-, hole, opens', rfl⟩
    · exact absurd isFree (notFree_of_recyclable isRecyclable)
    obtain rfl := Except.ok.inj (opens.symm.trans opens')
    refine Or.inr ⟨free, rest, loose.assign rfl rfl (by simp [Slot.block, onFirstHole, Gc.setLocal])
      (main_others rfl rfl), stocked'.assign rfl rfl rfl rfl (.refl _) rfl
        (sameSlot_main rfl ⟨rfl, rfl, rfl⟩) ?_⟩
    simp only [Slot.block, Slot.cursor, Slot.limit, Slot.next, onFirstHole, Gc.setLocal, store_same]
    exact (view.nextHole positive).frame id (fun _ _ _ => rfl) rfl fun _ member _ => member
  · obtain ⟨rest, loose, stocked', isFree, view⟩ := stocked.shiftFree own some shift
    rcases placed with ⟨-, rfl⟩ | ⟨isRecyclable, hole, -, -⟩
    · by_cases clear : (taken.localAllocator self).next = null
      · refine Or.inr ⟨rest, recyclable, loose.assign rfl rfl (by simp [Slot.block, onFreeBlock])
          (main_others rfl rfl), stocked'.assign rfl rfl rfl rfl ⟨List.Sublist.refl _, id⟩ rfl
            (sameSlot_main rfl ⟨rfl, rfl, rfl⟩) ?_⟩
        simp only [Slot.block, Slot.cursor, Slot.limit, Slot.next, onFreeBlock, store_same, clear]
        exact view.frame id (fun _ _ _ => rfl) rfl fun _ member _ => member
      · left
        simp [onFreeBlock, clear]
    · exact absurd isFree (notFree_of_recyclable isRecyclable)

/-- `LocalAllocator_initOverflowCursor`. -/
theorem Kept.initOverflowCursor (feeds : Feeds (Kept setup slots) collect)
    (kept : Kept setup slots g)
    (success : LocalAllocator.initOverflowCursor collect self g = .ok g') :
    Kept setup (fun x => slots x ∨ x = .overflow self) g' := by
  obtain ⟨item, taken, took, rfl⟩ := initOverflowCursor_ok success
  obtain ⟨some, before, holds, shift⟩ := nextFreeBlock_taken feeds kept took
  have history := shift_history (Or.inr shift)
  rcases holds with stale | ⟨free, recyclable, own, stocked⟩
  · left
    simp [onOverflowBlock, Gc.setLocal, history, stale]
  obtain ⟨rest, loose, stocked', -, view⟩ := stocked.shiftFree own some shift
  refine Or.inr ⟨rest, recyclable, loose.assign rfl rfl
    (by simp [Slot.block, onOverflowBlock, Gc.setLocal]) (overflow_others rfl rfl),
    stocked'.assign rfl rfl rfl rfl (.refl _) rfl (sameSlot_overflow rfl ⟨rfl, rfl, rfl, rfl⟩) ?_⟩
  simp only [Slot.block, Slot.cursor, Slot.limit, Slot.next, onOverflowBlock, Gc.setLocal, store_same]
  exact view.frame id (fun _ _ _ => rfl) rfl fun _ member _ => member

end Cursors

/-! ## Resets and collections -/

/-- Another heap shape over the same blocks: nothing is new in them. -/
theorem Stock.reshape {setup' : Setup} (stock : Stock setup slots g) (shape : HeapShape setup' g')
    (small : g'.global.smallHeapStart = g.global.smallHeapStart ∧
      g'.global.smallHeapStop = g.global.smallHeapStop)
    (memory : g'.memory = g.memory) (headers : g'.block = g.block)
    (live : ∀ a ∈ g'.history.live, Block.from a.object ∈ g.global.blocks → a ∈ g.history.live)
    (flag : g'.history.holeInObject = false → g.history.holeInObject = false)
    (lists : g'.global.freeList = g.global.freeList ∧
      g'.global.recyclableList = g.global.recyclableList)
    (fewer : ∀ x, slots' x → slots x ∧ SameSlot g g' x) : Stock setup' slots' g' := by
  obtain ⟨free, recyclable, own, stocked⟩ := stock
  have blocks : g'.global.blocks = g.global.blocks := by
    rw [GlobalAllocator.blocks, GlobalAllocator.blocks, small.1, small.2]
  have view : ∀ {b cursor limit next}, b ∈ g.global.blocks → Viewed g b cursor limit next →
      Viewed g' b cursor limit next := fun member view =>
    view.frame flag (fun _ _ _ => by rw [memory]) (by rw [headers])
      fun a inLive here => live a inLive (here ▸ member)
  refine ⟨free, recyclable, (own.subset fun x hx => (fewer x hx).1).congr (fun _ => by rw [headers])
    lists.1 lists.2 small.1 small.2 fun x hx => (fewer x hx).2.block, shape, fun b inHeap => ?_,
    fun b member => ?_, fun b member => ?_, fun x hx => ?_⟩
  · rw [blocks] at inHeap
    exact view inHeap (stocked.full b inHeap)
  · obtain ⟨isFree, offers⟩ := stocked.free b member
    rw [headers]
    exact ⟨isFree, view (own.listed b (Or.inl member)) offers⟩
  · obtain ⟨isRecyclable, hole, first, some, offers⟩ := stocked.recyclable b member
    rw [headers]
    exact ⟨isRecyclable, hole, first, some, view (own.listed b (Or.inr member)) offers⟩
  · obtain ⟨old, sameSlot⟩ := fewer x hx
    exact sameSlot.viewed (view (own.held x old).1 (stocked.held x old))

theorem Stock.shape (stock : Stock setup slots g) : HeapShape setup g := by
  obtain ⟨free, recyclable, own, stocked⟩ := stock
  exact stocked.shape

theorem Stock.congr (stock : Stock setup slots g) (same : space g'.global = space g.global)
    (allocators : g'.localAllocators = g.localAllocators) (memory : g'.memory = g.memory)
    (headers : g'.block = g.block) (history : NoNew g.history g'.history)
    (finalizers : g'.global.finalizers = g.global.finalizers)
    (lists : g'.global.freeList = g.global.freeList ∧
      g'.global.recyclableList = g.global.recyclableList)
    (fewer : ∀ x, slots' x → slots x ∧ SameSlot g g' x) : Stock setup slots' g' := by
  have unchanged := same
  simp only [space, Space.mk.injEq] at unchanged
  exact stock.reshape (stock.shape.congr same allocators (fun _ _ => by rw [headers]) history.live
    finalizers) ⟨unchanged.1, unchanged.2.1⟩ memory headers
    (fun a member _ => history.live.subset member) history.flag lists fewer

theorem Kept.subset (kept : Kept setup slots g) (fewer : ∀ x, slots' x → slots x) :
    Kept setup slots' g :=
  kept.imp_right fun stock => stock.congr rfl rfl rfl rfl (.refl _) rfl ⟨rfl, rfl⟩
    fun x hx => ⟨fewer x hx, .of_local rfl⟩

theorem Kept.growSmall (kept : Kept setup slots g)
    (success : GlobalAllocator.growSmall g = .ok g') : Kept setup slots g' := by
  rcases kept with stale | stock
  · left
    obtain ⟨increment, count, size, -, -, -, rfl⟩ := growSmall_pushes success
    exact stale
  · exact Or.inr (stock.growSmall success)

theorem Kept.feeds_noCollect : Feeds (Kept setup slots) noCollect :=
  Guarantees.feeds_noCollect fun _ _ kept grown => kept.growSmall grown

/-- `GC_LocalAllocator_reset` during a collection. -/
theorem Kept.reset {self : Nat} (kept : Kept setup slots g)
    (success : LocalAllocator.reset noCollect self g = .ok g') :
    Kept setup (fun x => slots x ∨ x.owner = self) g' := by
  rw [LocalAllocator.reset] at success
  obtain ⟨middle, first, second⟩ := bind_eq_ok.mp success
  refine ((kept.initCursor feeds_noCollect first).initOverflowCursor feeds_noCollect second).subset
    fun x hx => ?_
  cases x with
  | main other => exact Or.inl (hx.imp_right fun own => congrArg Slot.main own)
  | overflow other =>
    rcases hx with old | own
    · exact Or.inl (Or.inl old)
    · exact Or.inr (congrArg Slot.overflow own)

theorem Kept.resets (todo : List Nat) (kept : Kept setup slots g)
    (success : todo.foldlM (fun g self => LocalAllocator.reset noCollect self g) g = .ok g') :
    Kept setup (fun x => slots x ∨ x.owner ∈ todo) g' := by
  induction todo generalizing g slots with
  | nil =>
    rw [← Except.ok.inj success]
    exact kept.subset fun x hx => hx.resolve_right List.not_mem_nil
  | cons self rest ih =>
    rw [List.foldlM_cons] at success
    obtain ⟨next, reset, others⟩ := bind_eq_ok.mp success
    refine (ih (kept.reset reset) others).subset fun x hx => ?_
    rw [List.mem_cons, ← or_assoc] at hx
    exact hx

theorem Stock.walkable (stock : Stock setup slots g) : Walkable setup g := by
  obtain ⟨free, recyclable, own, stocked⟩ := stock
  exact ⟨stocked.shape, stocked.full⟩

/-- The small heap when all reachable objects are marked. -/
theorem Walkable.marked (walkable : Walkable setup g) {list : ChunkList} {rooted marked : Gc}
    (rooting : Collector.callCollectCallback (Collector.withChunkList
      (Collector.unmarkSmallObjects (setCollecting g true)) list) = .ok rooted)
    (marking : Collector.mark setup.env setup.env.fuel rooted = .ok marked) :
    Marking setup { marked with global := marked.global.resetCounters } := by
  have start : Walkable setup (setCollecting g true) :=
    ⟨walkable.shape.congr rfl rfl (fun _ _ => rfl) (List.Sublist.refl _) rfl, fun b inHeap =>
      (walkable.full b inHeap).frame id (fun _ _ _ => rfl) rfl fun _ member _ => member⟩
  have unmarked : Marking setup (Collector.withChunkList
      (Collector.unmarkSmallObjects (setCollecting g true)) list) :=
    start.unmarkSmallObjects.congr rfl rfl rfl rfl ⟨rfl, rfl⟩ rfl
  have rooted' := Marking.keeps.callCollectCallback unmarked rooting
  exact (Marking.keeps.mark _ rooted' marking).congr rfl rfl rfl rfl ⟨rfl, rfl⟩ rfl

/-- A collection restocks the heap: every registered allocator has two blocks to fill. -/
theorem Walkable.collectOnce (walkable : Walkable setup g)
    (success : Source.collectOnce setup.env g = .ok g') :
    Kept setup (fun x => x.owner ∈ setup.registered) g' := by
  rw [Source.collectOnce] at success
  obtain ⟨swept, collecting, rest⟩ := bind_eq_ok.mp success
  obtain ⟨last, resetting, done⟩ := bind_eq_ok.mp rest
  obtain ⟨list, rooted, marked, finalized, list', -, rooting, marking, finalizing, -, rfl⟩ :=
    collect_phases collecting
  have stock := ((walkable.marked rooting marking).finalizeObjects finalizing).sweep
  have kept : Kept setup (fun _ => False) (Collector.withChunkList
      (GlobalAllocator.recycleBlocks (Collector.noteSweep finalized)) list') :=
    Or.inr (stock.congr rfl rfl rfl rfl (.refl _) rfl ⟨rfl, rfl⟩ fun _ none => none.elim)
  have allocators : (Collector.withChunkList
      (GlobalAllocator.recycleBlocks (Collector.noteSweep finalized)) list').localAllocators =
      setup.registered := stock.walkable.shape.allocators
  rw [allocators] at resetting
  have all := (kept.resets setup.registered resetting).subset fun x hx => Or.inr hx
  rw [← Except.ok.inj done]
  exact all.imp_right fun stock => stock.congr rfl rfl rfl rfl (.refl _) rfl ⟨rfl, rfl⟩
    fun x hx => ⟨hx, .of_local rfl⟩

theorem Kept.collectOnce (kept : Kept setup slots g)
    (success : Source.collectOnce setup.env g = .ok g') :
    Kept setup (fun x => x.owner ∈ setup.registered) g' :=
  kept.elim (fun stale => Or.inl (((FlagsUp.refl _).collectOnce success).staleNext stale))
    fun stock => stock.walkable.collectOnce success

/-- What the blocks of the registered allocators offer. -/
abbrev Running (setup : Setup) (g : Gc) : Prop :=
  Kept setup (fun x => x.owner ∈ setup.registered) g

theorem Running.feeds (setup : Setup) : Feeds (Running setup) (Source.collectOnce setup.env) :=
  ⟨fun _ _ kept ran => kept.collectOnce ran, fun _ _ kept grown => kept.growSmall grown⟩

/-! ## Allocation -/

/-- Different blocks have their own lines. -/
theorem blocks_apart {b c : Nat} (hb : b % blockSize = 0) (hc : c % blockSize = 0)
    (different : c ≠ b) : Block.stop b ≤ c ∨ Block.stop c ≤ b := by
  simp only [Block.stop, blockSize] at *
  omega

/-- An object is put at the start of the interval of a slot. -/
structure FilledSlot (x : Slot) (new : Allocation) (g g' : Gc) : Prop where
  object : new.object = x.cursor g
  word : new.size % wordSize = 0
  least : sizeofObject ≤ new.size
  most : new.size ≤ largeObjectSize
  room : x.cursor g + new.size ≤ x.limit g
  line : ∃ header, lineUpdate (g.block (x.block g)) (x.block g) (x.cursor g) = .ok header ∧
    g'.block = store g.block (x.block g) header
  memory : ∃ atomic, g'.memory = bumpMemory g.memory (x.cursor g) (x.limit g) new.size atomic
  live : g'.history.live = new :: g.history.live
  flag : g'.history.holeInObject = g.history.holeInObject
  block : x.block g' = x.block g
  cursor : x.cursor g' = x.cursor g + new.size
  limit : x.limit g' = x.limit g
  next : x.next g' = x.next g
  others : ∀ y, y ≠ x → SameSlot g g' y
  space : space g'.global = space g.global
  chunks : g'.global.largeChunkList = g.global.largeChunkList
  allocators : g'.localAllocators = g.localAllocators
  finalizers : g'.global.finalizers = g.global.finalizers
  free : g'.global.freeList = g.global.freeList
  recyclable : g'.global.recyclableList = g.global.recyclableList

/-- The object lies in the block of the slot. -/
theorem FilledSlot.home {x : Slot} {new : Allocation} (filled : FilledSlot x new g g')
    (view : Viewed g (x.block g) (x.cursor g) (x.limit g) (x.next g)) :
    Block.from new.object = x.block g := by
  obtain ⟨aligned, -, low, -, high⟩ := view.within
  have room := filled.room
  have least := filled.least
  rw [filled.object]
  refine from_eq aligned ?_ ?_
  · simp only [Block.start] at low
    omega
  · simp only [sizeofObject] at least
    omega

theorem Stock.fill (stock : Stock setup slots g) {x : Slot} (hx : slots x) {new : Allocation}
    (filled : FilledSlot x new g g') : Stock setup slots g' := by
  obtain ⟨free, recyclable, own, stocked⟩ := stock
  have view := stocked.held x hx
  obtain ⟨aligned, -, low, -, high⟩ := view.within
  obtain ⟨inHeap, notFree, notRecyclable⟩ := own.held x hx
  have distinct : ∀ y, slots y → y ≠ x → y.block g ≠ x.block g :=
    fun y hy different same => different (own.distinct y x hy hx same)
  have home := filled.home view
  obtain ⟨header, updated, headers⟩ := filled.line
  obtain ⟨atomic, memory⟩ := filled.memory
  obtain ⟨object, word, least, most, room⟩ : _ ∧ _ ∧ _ ∧ _ ∧ _ :=
    ⟨filled.object, filled.word, filled.least, filled.most, filled.room⟩
  have sameSpace := filled.space
  simp only [Guarantees.space, Space.mk.injEq] at sameSpace
  generalize hBlock : x.block g = b at *
  generalize hCursor : x.cursor g = cursor at *
  generalize hLimit : x.limit g = limit at *
  generalize hNext : x.next g = next at *
  have loads : ∀ a, a < Block.start b ∨ Block.stop b ≤ a →
      g'.memory.load a = g.memory.load a := by
    intro a away
    simp only [sizeofObject] at least
    rw [memory, load_bumpMemory _ _ _ _ _ _ (by omega), if_neg (by omega), if_neg (by omega)]
  have others : ∀ {c cursor limit next}, c ≠ b → c % blockSize = 0 → Viewed g c cursor limit next →
      Viewed g' c cursor limit next := by
    intro c cursor limit next different alignedC view
    refine view.frame (fun clear => filled.flag ▸ clear)
      (fun a low high => loads a (lines_apart aligned alignedC different low high)) ?_
      fun a member here => ?_
    · rw [headers, store_other _ _ _ _ different]
    · rw [filled.live] at member
      rcases List.mem_cons.mp member with rfl | old
      · exact absurd (here.symm.trans home) different
      · exact old
  have blockAligned : ∀ {c}, c ∈ g.global.blocks → c % blockSize = 0 :=
    fun member => stocked.shape.bounds.aligned member
  obtain ⟨layout, holes, extent, ok, ordered, exact⟩ := view
  obtain ⟨layout', extent', ok', -, all⟩ := ok.allocate atomic
    ⟨word, least, most, room, updated⟩
  have viewed : Viewed g' b (cursor + new.size) limit next := by
    refine ⟨layout', holes, extent', ok'.frame (fun a _ _ => by rw [viewOf, memory]; rfl) ?_
      ⟨rfl, rfl, rfl⟩ fun o member => ?_, ?_, fun clear => ?_⟩
    · dsimp only [viewOf, BlockView.bump]
      rw [headers, store_same]
    · obtain ⟨a, inLive, here, rfl⟩ := mem_liveIn.mp member
      rw [filled.live] at inLive
      rcases List.mem_cons.mp inLive with rfl | old
      · dsimp only [viewOf, BlockView.bump]
        rw [object]
        exact List.mem_cons_self
      · exact List.mem_cons_of_mem _ (mem_liveIn.mpr ⟨a, old, here, rfl⟩)
    · rw [List.pairwise_cons] at ordered ⊢
      exact ⟨fun y member => ordered.1 y member, ordered.2⟩
    · rw [memory]
      exact all (exact (filled.flag ▸ clear))
  refine ⟨free, recyclable, own.congr (fun c => ?_) filled.free filled.recyclable sameSpace.1
    sameSpace.2.1 (fun y hy => ?_), ⟨stocked.shape.bounds.congr filled.space,
      filled.allocators.trans stocked.shape.allocators, fun c outside => ?_, fun a member => ?_, ?_,
      filled.finalizers ▸ stocked.shape.finalizers⟩, fun c member => ?_, fun c member => ?_,
    fun c member => ?_, fun y hy => ?_⟩
  · rw [headers, store_apply]
    split
    · next here => rw [here, lineUpdate_next updated]
    · rfl
  · by_cases same : y = x
    · rw [same, filled.block]
    · exact (filled.others y same).block
  · rw [blocks_congr filled.space] at outside
    rw [headers, store_other]
    · exact stocked.shape.beyond c outside
    · rintro rfl
      exact outside inHeap
  · rw [filled.live] at member
    rw [blocks_congr filled.space]
    rcases List.mem_cons.mp member with rfl | old
    · exact Or.inl (home ▸ inHeap)
    · exact (stocked.shape.homes a old).imp_right (inLarge_congr filled.space).mpr
  · rw [filled.live]
    refine List.Pairwise.cons (fun a old => ?_) stocked.shape.apart
    rw [ShareNothing, object]
    by_cases here : Block.from a.object = b
    · obtain ⟨walked, -, whole⟩ := ok.live _ (mem_liveIn.mpr ⟨a, old, here, rfl⟩)
      have outside := ok.ok.outside a.object walked (cursor, limit) (by simp [viewOf])
      dsimp only at whole outside
      omega
    · rcases stocked.shape.homes a old with home' | inLarge
      · obtain ⟨layout, extent, intact⟩ := (stocked.full _ home').intact
        have within := intact.payload_within old rfl
        have apart := blocks_apart aligned (blockAligned home') here
        simp only [Block.start] at low within
        omega
      · have apart := inLarge.apart stocked.shape.bounds inHeap
        simp only [Block.start] at low
        omega
  · rw [blocks_congr filled.space] at member
    by_cases same : c = b
    · rw [same]
      exact viewed.full
    · exact others same (blockAligned member) (stocked.full c member)
  · obtain ⟨isFree, offers⟩ := stocked.free c member
    have different : c ≠ b := fun same => notFree (same ▸ member)
    rw [headers, store_other _ _ _ _ different]
    exact ⟨isFree, others different (blockAligned (own.listed c (Or.inl member))) offers⟩
  · obtain ⟨isRecyclable, hole, first, some, offers⟩ := stocked.recyclable c member
    have different : c ≠ b := fun same => notRecyclable (same ▸ member)
    rw [headers, store_other _ _ _ _ different]
    exact ⟨isRecyclable, hole, first, some,
      others different (blockAligned (own.listed c (Or.inr member))) offers⟩
  · by_cases same : y = x
    · rw [same, filled.block, filled.cursor, filled.limit, filled.next, hBlock, hCursor, hLimit, hNext]
      exact viewed
    · exact (filled.others y same).viewed
        (others (distinct y hy same) (blockAligned (own.held y hy).1) (stocked.held y hy))

/-- `LocalAllocator_findNextHole`. -/
theorem Stock.nextHole (stock : Stock setup slots g) {self : Nat} (hx : slots (.main self))
    (some : (g.localAllocator self).next ≠ null) :
    Stock setup slots (LocalAllocator.findNextHole self g).2 := by
  rw [LocalAllocator.findNextHole, if_pos some]
  obtain ⟨free, recyclable, own, stocked⟩ := stock
  have view := (stocked.held _ hx).nextHole some
  have assigned : Stocked setup (fun x => slots x ∨ x = .main self) (g.setLocal self
      { g.localAllocator self with
        cursor := (g.localAllocator self).next
        limit := g.memory.load (g.localAllocator self).next
        next := g.memory.load ((g.localAllocator self).next + 8) }) free recyclable := by
    refine stocked.assign rfl rfl rfl rfl (.refl _) rfl (sameSlot_main rfl ⟨rfl, rfl, rfl⟩) ?_
    simp only [Slot.block, Slot.cursor, Slot.limit, Slot.next, Gc.setLocal, store_same]
    exact view.frame id (fun _ _ _ => rfl) rfl fun _ member _ => member
  refine ⟨free, recyclable, own.congr (fun _ => rfl) rfl rfl rfl rfl fun y hy => ?_,
    assigned.congr rfl rfl rfl rfl (.refl _) rfl (fun _ member => member) (fun _ member => member)
      fun y hy => ⟨Or.inl hy, .of_local rfl⟩⟩
  exact setLocal_block (by rfl) (by rfl) (by rfl) y

section Allocate
variable {self size rsize atomic object : Nat}

/-- Bumping a cursor and writing the header of the object. -/
theorem Bumped.filled (bumped : Bumped self rsize g object g') (word : rsize % wordSize = 0)
    (least : sizeofObject ≤ rsize) (most : rsize ≤ largeObjectSize) (size atomic : Nat) :
    ∃ x : Slot, x.owner = self ∧ x.cursor g = object ∧
      FilledSlot x ⟨g'.history.serials, object, rsize⟩ g (handOut object size rsize atomic g') := by
  cases bumped with
  | main room bump =>
    obtain ⟨header, updated, rfl⟩ := bump_ok bump
    refine ⟨.main self, rfl, rfl, ?_⟩
    exact {
      object := rfl
      word := word
      least := least
      most := most
      room := room
      line := ⟨header, updated, rfl⟩
      memory := ⟨atomic, rfl⟩
      live := rfl
      flag := rfl
      block := by simp [Slot.block, handOut, Gc.setLocal]
      cursor := by simp [Slot.cursor, handOut, Gc.setLocal]
      limit := by simp [Slot.limit, handOut, Gc.setLocal]
      next := by simp [Slot.next, handOut, Gc.setLocal]
      others := sameSlot_main (by rfl) ⟨by rfl, by rfl, by rfl⟩
      space := rfl
      chunks := rfl
      allocators := rfl
      finalizers := rfl
      free := rfl
      recyclable := rfl }
  | overflow room bump =>
    obtain ⟨header, updated, rfl⟩ := bump_ok bump
    refine ⟨.overflow self, rfl, rfl, ?_⟩
    exact {
      object := rfl
      word := word
      least := least
      most := most
      room := room
      line := ⟨header, updated, rfl⟩
      memory := ⟨atomic, rfl⟩
      live := rfl
      flag := rfl
      block := by simp [Slot.block, handOut, Gc.setLocal]
      cursor := by simp [Slot.cursor, handOut, Gc.setLocal]
      limit := by simp [Slot.limit, handOut, Gc.setLocal]
      next := rfl
      others := sameSlot_overflow (by rfl) ⟨by rfl, by rfl, by rfl, by rfl⟩
      space := rfl
      chunks := rfl
      allocators := rfl
      finalizers := rfl
      free := rfl
      recyclable := rfl }

/-- No interval starts at address 0. -/
theorem Stock.not_nowhere (stock : Stock setup slots g) (held : ∀ x : Slot, x.owner = self → slots x)
    (word : rsize % wordSize = 0) (least : sizeofObject ≤ rsize) (most : rsize ≤ largeObjectSize) :
    ¬ Bumped self rsize g null g' := by
  intro bumped
  obtain ⟨free, recyclable, own, stocked⟩ := stock
  obtain ⟨x, owner, start, filled⟩ := bumped.filled word least most rsize 0
  have within := (stocked.held x (held x owner)).within
  rw [start] at within
  simp only [Block.start, lineSize, null] at within
  omega

theorem Running.allocationKeeps (registered : self ∈ setup.registered)
    (word : rsize % wordSize = 0) (least : sizeofObject ≤ rsize) (most : rsize ≤ largeObjectSize) :
    AllocationKeeps (Running setup) (Source.collectOnce setup.env) self size rsize atomic where
  block _ _ running success := (Kept.initCursor (Running.feeds setup) running success).subset
    fun _ hx => Or.inl hx
  overflow _ _ running success :=
    (Kept.initOverflowCursor (Running.feeds setup) running success).subset fun _ hx => Or.inl hx
  hole before running some := by
    rcases running with stale | stock
    · left
      rw [LocalAllocator.findNextHole, if_pos some]
      exact stale
    · exact Or.inr (stock.nextHole registered some)
  object before after object running bumped _ := by
    rcases running with stale | stock
    · exact Or.inl (((FlagsUp.refl _).bumped bumped).staleNext stale)
    · obtain ⟨x, owner, -, filled⟩ := bumped.filled word least most size atomic
      exact Or.inr (stock.fill (owner ▸ registered) filled)
  nowhere before after running bumped := by
    rcases running with stale | stock
    · exact Or.inl (((FlagsUp.refl _).bumped bumped).staleNext stale)
    · exact absurd bumped (stock.not_nowhere (fun x owner => owner ▸ registered) word least most)

end Allocate

/-- The bytes that `GC_LocalAllocator_allocateSmall` bumps by. -/
theorem small_rsize {size : Nat} (small : size ≤ largeObjectSize - sizeofObject) :
    roundToNextMultiple (sizeAdd size sizeofObject) wordSize % wordSize = 0 ∧
      size + sizeofObject ≤ roundToNextMultiple (sizeAdd size sizeofObject) wordSize ∧
      roundToNextMultiple (sizeAdd size sizeofObject) wordSize ≤ largeObjectSize := by
  simp only [largeObjectSize, sizeofObject] at small
  have fits : sizeAdd size sizeofObject = size + sizeofObject :=
    sizeAdd_eq (by simp only [sizeofObject, sizeModulus]; omega)
  have rounded := roundToNextMultiple_eq (size + sizeofObject) wordSize (by decide)
    (by simp only [sizeofObject, wordSize, sizeModulus]; omega)
  rw [fits, rounded]
  simp only [sizeofObject, wordSize, largeObjectSize]
  omega

theorem Running.allocateSmall {self size atomic pointer : Nat} (running : Running setup g)
    (registered : self ∈ setup.registered) (small : size ≤ largeObjectSize - sizeofObject)
    (success : LocalAllocator.allocateSmall setup.env (Source.collectOnce setup.env) self size atomic
      g = .ok (pointer, g')) : Running setup g' := by
  rw [LocalAllocator.allocateSmall] at success
  obtain ⟨-, -, rest⟩ := bind_eq_ok.mp success
  obtain ⟨word, least, most⟩ := small_rsize small
  generalize roundToNextMultiple (sizeAdd size sizeofObject) wordSize = rsize at *
  exact allocateSmallLoop_keeps
    (Running.allocationKeeps registered word (by omega) most) _ running rest

/-! ## The client -/

theorem Stock.clientStore (stock : Stock setup slots g) {address value : Nat}
    (success : g.clientStore address value = .ok g') : Stock setup slots g' := by
  obtain ⟨free, recyclable, own, stocked⟩ := stock
  obtain ⟨rfl, place⟩ := stocked.shape.owned_cases success
  have view : ∀ {b cursor limit next}, b ∈ g.global.blocks → Viewed g b cursor limit next →
      Viewed { g with memory := g.memory.store address value } b cursor limit next := by
    intro b cursor limit next hb view
    rcases place with outside | ⟨a, owned, home, payload⟩
    · refine view.frame id (fun x low high => store_other _ _ _ _ ?_) rfl fun _ member _ => member
      rintro rfl
      have := outside b hb
      omega
    · by_cases here : Block.from a.object = b
      · exact view.write owned here payload value
      · refine view.frame id (fun x low high => store_other _ _ _ _ ?_) rfl fun _ member _ => member
        rintro rfl
        obtain ⟨layout, extent, intact⟩ := (stocked.full _ home).intact
        have within := intact.payload_within owned rfl
        have := lines_apart (stocked.shape.bounds.aligned home) (stocked.shape.bounds.aligned hb)
          (Ne.symm here) low high
        omega
  exact ⟨free, recyclable, own.congr (fun _ => rfl) rfl rfl rfl rfl fun x _ => by cases x <;> rfl,
    stocked.shape.congr rfl rfl (fun _ _ => rfl) (List.Sublist.refl _) rfl,
    fun b hb => view hb (stocked.full b hb),
    fun b member => ⟨(stocked.free b member).1, view (own.listed b (Or.inl member)) (stocked.free b member).2⟩,
    fun b member => by
      obtain ⟨isRecyclable, hole, first, some, offers⟩ := stocked.recyclable b member
      exact ⟨isRecyclable, hole, first, some, view (own.listed b (Or.inr member)) offers⟩,
    fun x hx => (SameSlot.of_local rfl).viewed (view (own.held x hx).1 (stocked.held x hx))⟩

theorem Running.clientStore (running : Running setup g) {address value : Nat}
    (success : g.clientStore address value = .ok g') : Running setup g' := by
  rcases running with stale | stock
  · left
    rw [Gc.clientStore] at success
    split at success
    · exact Except.ok.inj success ▸ stale
    · cases success
  · exact Or.inr (stock.clientStore success)

/-! ## The start -/

section Start
variable {env : Env} {smallMap largeMap memoryLimit freeSpaceDivisor initialSize self : Nat}
  {memory : Memory} {contents : LocalAllocator}

theorem init_bounds {block block' : Nat → Block} {chunk : Nat → Chunk} {global : GlobalAllocator}
    (mapped : Mapped smallMap largeMap memoryLimit initialSize)
    (success : GlobalAllocator.init smallMap largeMap memoryLimit freeSpaceDivisor initialSize
      block chunk = .ok (block', global)) : HeapBounds smallMap largeMap global := by
  have ok := init_largeOk mapped success
  obtain ⟨enough, multiple, freeList, finalizers, -, -, rfl⟩ := init_ok success
  have positive : 0 < initialSize := by
    simp only [blockSize] at enough
    omega
  have fits : initialSize ≤ sizeModulus := by
    have within := mapped.within
    have limit := mapped.limit_lt
    simp only [sizeModulus]
    omega
  obtain ⟨aligned, low, high⟩ := mapAndAlign_spec smallMap multiple positive fits
  obtain ⟨-, lowLarge, highLarge⟩ := mapAndAlign_spec largeMap multiple positive fits
  have start := mapped.small.1
  exact ⟨ok.bounds, by dsimp only; simp only [blockSize] at *; omega,
    ⟨by dsimp only; omega, aligned, low, high⟩, rfl, multiple, ⟨lowLarge, highLarge⟩, rfl,
    mapped.disjoint⟩

/-- The heap that `GC_GlobalAllocator_init` leaves, before any thread has a block. -/
theorem init_stock {g : Gc} (mapped : Mapped smallMap largeMap memoryLimit initialSize)
    (success : GlobalAllocator.init smallMap largeMap memoryLimit freeSpaceDivisor initialSize
      (fun _ => Block.init) (fun _ => ⟨null, 0, ⟨0, 0, 0⟩⟩) = .ok (g.block, g.global))
    (allocators : g.localAllocators = []) (history : g.history = History.empty) :
    Stock ⟨env, smallMap, largeMap, []⟩ (fun x => x.owner ∈ ([] : List Nat)) g ∧
      SecondBlockReady env g := by
  obtain ⟨own, -⟩ := init_owned mapped success allocators
  have bounds := init_bounds mapped success
  obtain ⟨enough, multiple, freeList, finalizers, pushed, created, global⟩ := init_ok success
  have same : ∀ b, SameBlock (g.block b) Block.init := by
    intro b
    have here := pushBlocks_same ((List.range (initialSize / blockSize)).map fun i =>
      GlobalAllocator.mapAndAlign smallMap initialSize + i * blockSize) (fun _ => Block.init)
      BlockList.clear b
    rwa [pushed, ite_self] at here
  have none : ∀ a, a ∉ g.history.live := fun a member => by
    rw [history] at member
    exact List.not_mem_nil member
  have view : ∀ b ∈ g.global.blocks, Viewed g b (Block.start b) (Block.stop b) null :=
    fun b member => .fresh (bounds.aligned member) (same b).lineHeaders
      fun a inLive => absurd inLive (none a)
  refine ⟨⟨_, [], own.subset fun x hx => (List.not_mem_nil hx).elim,
    ⟨bounds, allocators, fun b _ => (same b).lineHeaders,
      fun a inLive => absurd inLive (none a), ?_, Or.inr ?_⟩, fun b member => (view b member).full,
    fun b member => ⟨(same b).isFree, view b (own.listed b (Or.inl member))⟩,
    fun b member => (List.not_mem_nil member).elim, fun x hx => (List.not_mem_nil hx).elim⟩, ?_⟩
  · rw [history]
    exact List.Pairwise.nil
  · rw [global]
    exact created
  · -- the initial heap has at least two blocks
    have two : 2 ≤ initialSize / blockSize := by
      simp only [blockSize] at *
      omega
    obtain ⟨count, counted⟩ := Nat.exists_eq_add_of_le two
    have listed := own.freeListed
    rw [counted, Nat.add_comm, List.range_succ_eq_map, List.map_cons, List.range_succ_eq_map,
      List.map_cons, List.map_cons] at listed
    generalize (List.map _ (List.map Nat.succ (List.map Nat.succ (List.range count)))) = rest at listed
    obtain ⟨first, second, -⟩ := listed.links
    have absent := listed.absent
    rw [List.mem_cons, List.mem_cons, not_or, not_or] at absent
    refine .listed ?_ (Or.inr ?_)
    · rw [BlockList.isEmpty, first, beq_eq_false_iff_ne]
      exact Ne.symm absent.1
    · dsimp only at second
      rw [first, second]
      exact Ne.symm absent.2.1

/-- `GC_init_thread`, whatever the struct of the new thread contained. -/
theorem Running.initThread {registered : List Nat}
    (running : Running ⟨env, smallMap, largeMap, registered⟩ g) (fresh : self ∉ registered)
    (ready : SecondBlockReady env g) (success : Source.initThread env self contents g = .ok g') :
    Running ⟨env, smallMap, largeMap, registered ++ [self]⟩ g' := by
  rw [Source.initThread] at success
  obtain ⟨reset, resets, done⟩ := bind_eq_ok.mp success
  rw [← Except.ok.inj done]
  clear done success
  rcases running with stale | stock
  · have kept : FlagsUp g.history reset.history :=
      FlagsUp.reset FlagsUp.feeds (FlagsUp.refl (g.setLocal self contents).history) resets
    exact Or.inl (kept.staleNext stale)
  rw [LocalAllocator.reset] at resets
  obtain ⟨middle, first, second⟩ := bind_eq_ok.mp resets
  have set : Stock ⟨env, smallMap, largeMap, registered⟩ (fun x => x.owner ∈ registered)
      (g.setLocal self contents) := by
    refine stock.congr rfl rfl rfl rfl (.refl _) rfl ⟨rfl, rfl⟩ fun x hx => ⟨hx, .of_local ?_⟩
    exact store_other _ _ _ _ fun same => fresh (same ▸ hx)
  have ready' : SecondBlockReady env (g.setLocal self contents) := by
    cases ready with
    | listed free other => exact .listed free other
    | early nothing => exact .early nothing
    | late noRecyclable noFree stores divided => exact .late noRecyclable noFree stores divided
  have kept₁ := Kept.initCursor (Running.feeds _) (Or.inr set) first
  have without : middle.global.freeList.isEmpty = false ∨ NothingDue middle := by
    obtain ⟨item, taken, took, cases⟩ := initCursor_cases first
    have left := ready'.nextBlock set.walkable.shape.bounds.sized took
    rcases cases with ⟨-, rfl⟩ | ⟨-, hole, -, rfl⟩
    · exact left
    · exact left
  have kept₂ := kept₁.initOverflowCursor Kept.feeds_noCollect
    (initOverflowCursor_noCollect without second)
  rcases kept₂ with stale | ⟨free, recyclable, own, stocked⟩
  · exact Or.inl stale
  refine Or.inr (Stock.reshape ⟨free, recyclable, own, stocked⟩ ?_ ⟨rfl, rfl⟩ rfl rfl
    (fun _ member _ => member) id ⟨rfl, rfl⟩ fun x hx => ⟨?_, .of_local rfl⟩)
  · obtain ⟨bounds, allocators, beyond, homes, apart, finalizers⟩ := stocked.shape
    exact ⟨bounds, congrArg (· ++ [self]) allocators, beyond, homes, apart, finalizers⟩
  · rw [List.mem_append, List.mem_singleton] at hx
    rcases hx with old | new
    · exact Or.inl (Or.inl old)
    · cases x with
      | main owner => exact Or.inl (Or.inr (congrArg Slot.main new))
      | overflow owner => exact Or.inr (congrArg Slot.overflow new)

/-- `GC_init` starts the first thread on the heap that `GC_GlobalAllocator_init` leaves. -/
theorem init_threads {g : Gc} (success : Source.init env smallMap largeMap memoryLimit freeSpaceDivisor
    initialSize memory self contents = .ok g) :
    ∃ g₀ : Gc, GlobalAllocator.init smallMap largeMap memoryLimit freeSpaceDivisor initialSize
        (fun _ => Block.init) (fun _ => ⟨null, 0, ⟨0, 0, 0⟩⟩) = .ok (g₀.block, g₀.global) ∧
      g₀.localAllocators = [] ∧ g₀.history = History.empty ∧ g₀.collector = ⟨[], false⟩ ∧
      Source.initThread env self contents g₀ = .ok g := by
  rw [Source.init] at success
  obtain ⟨⟨block, global⟩, started, thread⟩ := bind_eq_ok.mp success
  exact ⟨_, started, rfl, rfl, rfl, thread⟩

/-- `GC_init`, whatever the struct of the first thread contained. -/
theorem init_running {g : Gc} (mapped : Mapped smallMap largeMap memoryLimit initialSize)
    (success : Source.init env smallMap largeMap memoryLimit freeSpaceDivisor initialSize memory self
      contents = .ok g) : Running ⟨env, smallMap, largeMap, [self]⟩ g := by
  obtain ⟨g₀, started, allocators, history, -, thread⟩ := init_threads success
  obtain ⟨stock, ready⟩ : Stock ⟨env, smallMap, largeMap, []⟩ _ g₀ ∧ SecondBlockReady env g₀ :=
    init_stock mapped started allocators history
  exact Running.initThread (Or.inr stock) List.not_mem_nil ready thread

end Start

end Steps

end ImmixGc.Guarantees
