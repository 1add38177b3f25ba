import ImmixGc.Foundation.Endings
import ImmixGc.Guarantees.LargeObjects

/-!
# Taking blocks ends

`GC_GlobalAllocator_nextBlock` and `GC_GlobalAllocator_nextFreeBlock` return a block, unless the
collection they run stops, the limit leaves no room to grow, or the heap is so large that
`growSmall` cannot count its new blocks. Giving an allocator its two blocks stops for no other
reason.
-/
namespace ImmixGc.Guarantees
open Source Foundation

/-- Why no block can be had. -/
inductive SupplyStop (memoryLimit : Nat) : Stop → Prop where
  | limit : SupplyStop memoryLimit outOfMemory
  /-- The number of new blocks wraps as an `int`. -/
  | uncounted (huge : 2 ^ 48 ≤ memoryLimit) : SupplyStop memoryLimit finalAbort

/-- Collections and growth keep an invariant and stop for `allowed` reasons, and a small heap
that has grown has a free block. -/
structure Supplies (allowed : Stop → Prop) (invariant : Gc → Prop) (collect : Gc → Result Gc) : Prop
    extends Feeds invariant collect where
  collects : ∀ before stop, invariant before →
    GlobalAllocator.tryCollect collect before = .error stop → allowed stop
  grows : ∀ before stop, invariant before →
    (GlobalAllocator.growSmall before >>= GlobalAllocator.takeFree) = .error stop → allowed stop

section Supply
variable {allowed : Stop → Prop} {invariant : Gc → Prop} {collect : Gc → Result Gc} {g : Gc}

/-- A free list that is not empty has a block to take. -/
theorem Supplies.growAndTakeFree (supplies : Supplies allowed invariant collect) (start : invariant g)
    {stop : Stop} (ends : GlobalAllocator.growAndTakeFree g = .error stop) : allowed stop := by
  unfold GlobalAllocator.growAndTakeFree GlobalAllocator.growIfEmpty at ends
  split at ends
  · exact supplies.grows g stop start ends
  · next full =>
    obtain ⟨after, taken⟩ := takeFree_ok (g := g) (by simpa [BlockList.isEmpty] using full)
    rw [ok_bind, taken] at ends
    cases ends

/-- Where `nextFreeBlock` gets its block. -/
structure FreeTaken (invariant : Gc → Prop) (taken : Nat × Gc) : Prop where
  some : taken.1 ≠ null
  listed : ∃ before, invariant before ∧ GlobalAllocator.shiftFree before = taken

/-- Where `nextBlock` gets its block. -/
structure BlockTaken (invariant : Gc → Prop) (taken : Nat × Gc) : Prop where
  some : taken.1 ≠ null
  listed : ∃ before, invariant before ∧ (GlobalAllocator.shiftRecyclable before = taken ∨
    GlobalAllocator.shiftFree before = taken)

theorem Supplies.nextFreeBlock (supplies : Supplies allowed invariant collect) (start : invariant g) :
    Ends allowed (FreeTaken invariant) (GlobalAllocator.nextFreeBlock collect g) := by
  constructor
  case stops =>
    intro stop ends
    unfold GlobalAllocator.nextFreeBlock at ends
    have unshifted := @shiftFree_null g
    generalize GlobalAllocator.shiftFree g = shifted at *
    obtain ⟨item, after⟩ := shifted
    dsimp only at ends unshifted
    split at ends
    · cases ends
    next none =>
    rw [unshifted (Classical.not_not.mp none)] at ends
    rcases bind_eq_error.mp ends with failed | ⟨⟨collected, middle⟩, tried, rest⟩
    · exact supplies.collects g stop start failed
    have kept : invariant middle := by
      rcases tryCollect_cases tried with ⟨-, rfl⟩ | ⟨-, ran⟩
      · exact start
      · exact supplies.collecting _ _ start ran
    dsimp only at rest
    split at rest
    · exact supplies.growAndTakeFree kept rest
    · exact supplies.grows middle stop kept rest
  case returns =>
    intro taken took
    obtain ⟨some, listed⟩ := nextFreeBlock_taken supplies.toFeeds start took
    exact ⟨some, listed⟩

theorem Supplies.nextBlock (supplies : Supplies allowed invariant collect) (start : invariant g) :
    Ends allowed (BlockTaken invariant) (GlobalAllocator.nextBlock collect g) := by
  constructor
  case stops =>
    intro stop ends
    unfold GlobalAllocator.nextBlock at ends
    have noRecyclable := @shiftRecyclable_null g
    generalize GlobalAllocator.shiftRecyclable g = recycled at *
    obtain ⟨item, after⟩ := recycled
    dsimp only at ends noRecyclable
    split at ends
    · cases ends
    next none =>
    rw [noRecyclable (Classical.not_not.mp none)] at ends
    have noFree := @shiftFree_null g
    generalize GlobalAllocator.shiftFree g = shifted at *
    obtain ⟨item', after'⟩ := shifted
    dsimp only at ends noFree
    split at ends
    · cases ends
    next none' =>
    rw [noFree (Classical.not_not.mp none')] at ends
    rcases bind_eq_error.mp ends with failed | ⟨⟨collected, middle⟩, tried, rest⟩
    · exact supplies.collects g stop start failed
    dsimp only at rest
    rcases tryCollect_cases tried with ⟨rfl, rfl⟩ | ⟨rfl, ran⟩
    · exact supplies.growAndTakeFree start rest
    have kept := supplies.collecting _ _ start ran
    have noneLeft := @shiftRecyclable_null middle
    generalize GlobalAllocator.shiftRecyclable middle = again at *
    obtain ⟨item'', after''⟩ := again
    dsimp only at rest noneLeft
    rw [if_pos rfl] at rest
    split at rest
    · cases rest
    next none'' =>
    rw [noneLeft (Classical.not_not.mp none'')] at rest
    exact supplies.growAndTakeFree kept rest
  case returns =>
    intro taken took
    obtain ⟨some, listed⟩ := nextBlock_taken supplies.toFeeds start took
    exact ⟨some, listed⟩

end Supply

/-! ## Growth -/

section Growth
variable {setup : Setup} {slots : Slot → Prop} {g g' : Gc}

/-- A growth that pushes no block needs a heap beyond the range of an `int`. -/
theorem countedBlocks_nil (bounds : Bounds g.global) (none : countedBlocks g = [])
    (room : g.global.smallHeapSize + g.global.largeHeapSize + smallIncrement g ≤
      g.global.memoryLimit) : 2 ^ 48 ≤ g.global.memoryLimit := by
  by_contra below
  have small := bounds.small
  have total := bounds.total
  have exact' : sizeMul g.global.smallHeapSize growthRate = g.global.smallHeapSize * 30 :=
    Nat.mod_eq_of_lt (by simp only [growthRate, sizeModulus]; omega)
  have count : (intOf (smallIncrement g / blockSize)).toNat = 0 := by
    simpa [countedBlocks] using none
  have many : smallIncrement g / blockSize = 0 ∨ 2 ^ 31 ≤ smallIncrement g / blockSize := by
    by_contra few
    rw [not_or, Nat.not_le] at few
    have counts := intOf_toNat_iff.mpr few.2
    omega
  rw [smallIncrement, exact'] at many room
  simp only [blockSize] at *
  omega

theorem takeFree_stops {stop : Stop} (ends : GlobalAllocator.takeFree g = .error stop) :
    stop = finalAbort := by
  unfold GlobalAllocator.takeFree at ends
  dsimp only at ends
  split at ends
  · cases ends
  · exact (Except.error.inj ends).symm

theorem grownSmall_first (g : Gc) (increment : Nat) {pushed : List Nat}
    (some : ∀ item ∈ pushed, item ≠ null) (nonempty : pushed ≠ []) :
    (grownSmall g increment pushed).global.freeList.first ≠ null :=
  pushBlocks_first pushed _ _ some (Or.inr nonempty)

/-- Growing stops only at the limit, or without a block that could be counted. -/
theorem Stock.growAndTake_stops (stock : Stock setup slots g) {stop : Stop}
    (ends : (GlobalAllocator.growSmall g >>= GlobalAllocator.takeFree) = .error stop) :
    SupplyStop g.global.memoryLimit stop := by
  have heap := stock.shape.bounds
  rw [growSmall_eq heap.bounds] at ends
  split at ends
  · rw [error_bind] at ends
    obtain rfl := Except.error.inj ends
    exact .limit
  next room =>
  rw [ok_bind] at ends
  by_cases nonempty : countedBlocks g = []
  · obtain rfl := takeFree_stops ends
    exact .uncounted (countedBlocks_nil heap.bounds nonempty (by omega))
  · have some : ∀ item ∈ countedBlocks g, item ≠ null := by
      intro item member
      rw [countedBlocks] at member
      obtain ⟨i, -, rfl⟩ := mem_newBlocks member
      have mapped := heap.smallStart.1
      have stop := heap.smallStop
      simp only [null]
      omega
    obtain ⟨after, taken⟩ := takeFree_ok (grownSmall_first g (smallIncrement g) some nonempty)
    rw [taken] at ends
    cases ends

/-! ## Cursors -/

/-- The interval of a slot starts at a word and lies in its block. -/
structure SlotOk (g : Gc) (x : Slot) : Prop where
  aligned : x.block g % blockSize = 0
  word : x.cursor g % wordSize = 0
  low : Block.start (x.block g) ≤ x.cursor g
  high : x.limit g ≤ Block.stop (x.block g)

theorem SlotOk.same {x : Slot} (ok : SlotOk g x) (same : SameSlot g g' x) : SlotOk g' x := by
  obtain ⟨aligned, word, low, high⟩ := ok
  constructor
  · rw [same.block]
    exact aligned
  · rw [same.cursor]
    exact word
  · rw [same.block, same.cursor]
    exact low
  · rw [same.block, same.limit]
    exact high

theorem Viewed.slotOk {x : Slot} (view : Viewed g (x.block g) (x.cursor g) (x.limit g) (x.next g)) :
    SlotOk g x := by
  obtain ⟨aligned, word, low, -, high⟩ := view.within
  exact ⟨aligned, word, low, high⟩

theorem Stock.slotOk {slots : Slot → Prop} (stock : Stock setup slots g) {x : Slot}
    (held : slots x) : SlotOk g x := by
  obtain ⟨free, recyclable, own, stocked⟩ := stock
  exact (stocked.held x held).slotOk

/-- A whole block. -/
theorem SlotOk.whole {x : Slot} {item : Nat} (aligned : item % blockSize = 0)
    (block : x.block g = item) (cursor : x.cursor g = Block.start item)
    (limit : x.limit g = Block.stop item) : SlotOk g x := by
  refine ⟨block ▸ aligned, ?_, ?_, ?_⟩
  · rw [cursor]
    simp only [Block.start, lineSize, blockSize, wordSize] at *
    omega
  · rw [block, cursor]
  · rw [block, limit]

/-- Where there is room, bumping the cursor succeeds. -/
theorem SlotOk.bump_ends {x : Slot} (ok : SlotOk g x) {rsize : Nat} (least : sizeofObject ≤ rsize)
    (room : x.cursor g + rsize ≤ x.limit g) :
    x.cursor g ≠ null ∧
      ∃ g', LocalAllocator.bump (x.block g) (x.cursor g) (x.limit g) rsize g = .ok g' := by
  obtain ⟨aligned, word, low, high⟩ := ok
  generalize x.block g = block at *
  generalize x.cursor g = cursor at *
  generalize x.limit g = limit at *
  obtain ⟨i, bound, above, below⟩ : ∃ i < lineCount, Block.line block i ≤ cursor ∧
      cursor < Block.line block i + lineSize := by
    refine ⟨(cursor - Block.start block) / lineSize, ?_⟩
    simp only [Block.line, Block.start, Block.stop, lineSize, lineCount, blockSize, sizeofObject] at *
    omega
  constructor
  · simp only [Block.start, lineSize, null] at *
    omega
  · unfold LocalAllocator.bump
    rw [lineUpdate_eq aligned bound above below word, ok_bind]
    exact ⟨_, rfl⟩

/-- `LocalAllocator_initCursor`, as the two ways to enter a block. -/
theorem initCursor_eq (collect : Gc → Result Gc) (self : Nat) (g : Gc) :
    LocalAllocator.initCursor collect self g = (do
      let taken ← GlobalAllocator.nextBlock collect g
      if (taken.2.block taken.1).isFree then .ok (onFreeBlock self taken.1 taken.2)
      else if (taken.2.block taken.1).isRecyclable then do
        let hole ← (taken.2.block taken.1).firstFreeLine taken.1
        .ok (onFirstHole self taken.1 hole taken.2)
      else .error (.abort "GC: can't init cursors into unavailable block\n")) := by
  unfold LocalAllocator.initCursor
  refine congrArg (GlobalAllocator.nextBlock collect g >>= ·) (funext fun taken => ?_)
  obtain ⟨item, after⟩ := taken
  dsimp only [Gc.setLocal]
  simp only [store_same, store_store]
  rfl

/-- Entering a block leaves the overflow block alone. -/
theorem SlotOk.onFreeBlock {self owner item : Nat} (ok : SlotOk g (.overflow owner)) :
    SlotOk (onFreeBlock self item g) (.overflow owner) := by
  have others : ∀ x, x ≠ .main self → SameSlot g (Guarantees.onFreeBlock self item g) x :=
    sameSlot_main rfl ⟨rfl, rfl, rfl⟩
  exact ok.same (others _ fun wrong => by cases wrong)

theorem SlotOk.onFirstHole {self owner item hole : Nat} (ok : SlotOk g (.overflow owner)) :
    SlotOk (onFirstHole self item hole g) (.overflow owner) := by
  have others : ∀ x, x ≠ .main self → SameSlot g (Guarantees.onFirstHole self item hole g) x :=
    sameSlot_main rfl ⟨rfl, rfl, rfl⟩
  exact ok.same (others _ fun wrong => by cases wrong)

theorem SlotOk.onOverflowBlock {self owner item : Nat} (ok : SlotOk g (.overflow owner))
    (aligned : item % blockSize = 0) : SlotOk (onOverflowBlock self item g) (.overflow owner) := by
  by_cases here : owner = self
  · subst here
    apply SlotOk.whole aligned
    all_goals simp only [Slot.block, Slot.cursor, Slot.limit, Guarantees.onOverflowBlock, Gc.setLocal,
      store_same]
  · exact ok.same (.of_local (store_other _ _ _ _ here))

/-! ## Resets -/

/-- A block of the free list leaves the list. -/
theorem Stock.shiftFree (stock : Stock setup slots g) {item : Nat} (some : item ≠ null)
    (shift : GlobalAllocator.shiftFree g = (item, g')) :
    Stock setup slots g' ∧ (g'.block item).isFree = true ∧ item % blockSize = 0 := by
  obtain ⟨free, recyclable, own, stocked⟩ := stock
  obtain ⟨rest, loose, stocked', isFree, view⟩ := stocked.shiftFree own some shift
  exact ⟨⟨rest, recyclable, loose.owned, stocked'⟩, isFree, view.within.1⟩

/-- A block of the recyclable list leaves the list, with a line to start from. -/
theorem Stock.shiftRecyclable (stock : Stock setup slots g) {item : Nat} (some : item ≠ null)
    (shift : GlobalAllocator.shiftRecyclable g = (item, g')) :
    Stock setup slots g' ∧ (g'.block item).isRecyclable = true ∧
      ∃ hole, (g'.block item).firstFreeLine item = .ok hole := by
  obtain ⟨free, recyclable, own, stocked⟩ := stock
  obtain ⟨rest, loose, stocked', isRecyclable, hole, first, -, -⟩ :=
    stocked.shiftRecyclable own some shift
  exact ⟨⟨free, rest, loose.owned, stocked'⟩, isRecyclable, hole, first⟩

/-- The state between the sweep and the end of the collection, with the counter at 0. What the
allocators hold by then does not matter. -/
structure Restocking (setup : Setup) (short : Prop) (memoryLimit divisor size : Nat) (g : Gc) :
    Prop where
  stock : Stock setup (fun _ => False) g
  collecting : g.collector.isCollecting = true
  limit : g.global.memoryLimit = memoryLimit
  rested : Rested True divisor size g
  overflow : ∀ self ∈ setup.registered, SlotOk g (.overflow self)
  large : short → ∃ chunks, LargeLive setup.env chunks g

namespace Restocking
variable {short : Prop} {memoryLimit divisor size self item : Nat}

theorem congr (restocking : Restocking setup short memoryLimit divisor size g)
    (global : g'.global = g.global) (allocators : g'.localAllocators = g.localAllocators)
    (memory : g'.memory = g.memory) (headers : g'.block = g.block)
    (history : NoNew g.history g'.history) (collector : g'.collector = g.collector)
    (overflow : ∀ self ∈ setup.registered, SlotOk g' (.overflow self)) :
    Restocking setup short memoryLimit divisor size g' := by
  constructor
  · exact restocking.stock.congr (by rw [global]) allocators memory headers history (by rw [global])
      ⟨by rw [global], by rw [global]⟩ fun _ none => none.elim
  · rw [collector]
    exact restocking.collecting
  · rw [global]
    exact restocking.limit
  · exact restocking.rested.congr (by rw [global])
  · exact overflow
  · intro fits
    obtain ⟨chunks, large⟩ := restocking.large fits
    refine ⟨chunks, large.congr ⟨?_, ?_, ?_, ?_, ?_⟩ ?_ history.1 (Or.inr (by rw [global]))⟩
    all_goals rw [global]
    exact .refl _

theorem supplies (setup : Setup) (short : Prop) (memoryLimit divisor size : Nat) :
    Supplies (SupplyStop memoryLimit) (Restocking setup short memoryLimit divisor size) noCollect where
  collecting _ _ _ ran := by cases ran
  growing before after restocking grown := by
    refine ⟨restocking.stock.growSmall grown, ?_, ?_, restocking.rested.growSmall grown, ?_,
      fun fits => (restocking.large fits).imp fun _ large => large.growSmall grown⟩
    all_goals obtain ⟨increment, count, size, -, -, -, rfl⟩ := growSmall_pushes grown
    · exact restocking.collecting
    · exact restocking.limit
    · exact fun self member => (restocking.overflow self member).same (.of_local rfl)
  collects before stop restocking tried := by
    rw [GlobalAllocator.tryCollect, if_pos restocking.collecting] at tried
    cases tried
  grows before stop restocking ends := restocking.limit ▸ restocking.stock.growAndTake_stops ends

theorem shiftFree (restocking : Restocking setup short memoryLimit divisor size g) (some : item ≠ null)
    (shift : GlobalAllocator.shiftFree g = (item, g')) :
    Restocking setup short memoryLimit divisor size g' ∧ (g'.block item).isFree = true ∧
      item % blockSize = 0 := by
  obtain ⟨stock, isFree, aligned⟩ := restocking.stock.shiftFree some shift
  obtain ⟨-, collecting, limit, rested, overflow, large⟩ := restocking
  rw [GlobalAllocator.shiftFree, Prod.mk.injEq] at shift
  obtain ⟨-, rfl⟩ := shift
  exact ⟨⟨stock, collecting, limit, rested.congr rfl, fun self member =>
    (overflow self member).same (.of_local rfl), fun fits => (large fits).imp fun _ large =>
      large.congr ⟨rfl, rfl, rfl, rfl, rfl⟩ (.refl _) (List.Sublist.refl _) (Or.inr rfl)⟩, isFree,
    aligned⟩

theorem shiftRecyclable (restocking : Restocking setup short memoryLimit divisor size g)
    (some : item ≠ null) (shift : GlobalAllocator.shiftRecyclable g = (item, g')) :
    Restocking setup short memoryLimit divisor size g' ∧ (g'.block item).isRecyclable = true ∧
      ∃ hole, (g'.block item).firstFreeLine item = .ok hole := by
  obtain ⟨stock, opens⟩ := restocking.stock.shiftRecyclable some shift
  obtain ⟨-, collecting, limit, rested, overflow, large⟩ := restocking
  rw [GlobalAllocator.shiftRecyclable, Prod.mk.injEq] at shift
  obtain ⟨-, rfl⟩ := shift
  exact ⟨⟨stock, collecting, limit, rested.congr rfl, fun self member =>
    (overflow self member).same (.of_local rfl), fun fits => (large fits).imp fun _ large =>
      large.congr ⟨rfl, rfl, rfl, rfl, rfl⟩ (.refl _) (List.Sublist.refl _) (Or.inr rfl)⟩, opens⟩

/-- A listed block is one of the two kinds that `initCursor` can use. -/
theorem initCursor (restocking : Restocking setup short memoryLimit divisor size g) :
    Ends (SupplyStop memoryLimit) (Restocking setup short memoryLimit divisor size)
      (LocalAllocator.initCursor noCollect self g) := by
  rw [initCursor_eq]
  apply Ends.bind ((supplies setup short memoryLimit divisor size).nextBlock restocking)
  rintro ⟨item, taken⟩ - ⟨some, before, holds, recyclable | free⟩
  · obtain ⟨kept, isRecyclable, hole, opens⟩ := holds.shiftRecyclable some recyclable
    dsimp only
    rw [if_neg (notFree_of_recyclable isRecyclable), if_pos isRecyclable, opens, ok_bind]
    exact .ok (kept.congr rfl rfl rfl rfl (.refl _) rfl fun owner member =>
      (kept.overflow owner member).onFirstHole)
  · obtain ⟨kept, isFree, -⟩ := holds.shiftFree some free
    dsimp only
    rw [if_pos isFree]
    exact .ok (kept.congr rfl rfl rfl rfl ⟨List.Sublist.refl _, id⟩ rfl fun owner member =>
      (kept.overflow owner member).onFreeBlock)

theorem initOverflowCursor (restocking : Restocking setup short memoryLimit divisor size g) :
    Ends (SupplyStop memoryLimit) (Restocking setup short memoryLimit divisor size)
      (LocalAllocator.initOverflowCursor noCollect self g) := by
  unfold LocalAllocator.initOverflowCursor
  apply Ends.bind ((supplies setup short memoryLimit divisor size).nextFreeBlock restocking)
  rintro ⟨item, taken⟩ - ⟨some, before, holds, free⟩
  obtain ⟨kept, -, aligned⟩ := holds.shiftFree some free
  exact .ok (kept.congr rfl rfl rfl rfl (.refl _) rfl fun owner member =>
    (kept.overflow owner member).onOverflowBlock aligned)

theorem reset (restocking : Restocking setup short memoryLimit divisor size g) :
    Ends (SupplyStop memoryLimit) (Restocking setup short memoryLimit divisor size)
      (LocalAllocator.reset noCollect self g) := by
  unfold LocalAllocator.reset
  exact restocking.initCursor.bind fun _ _ kept => kept.initOverflowCursor

/-- Every allocator gets its two blocks. -/
theorem resets (restocking : Restocking setup short memoryLimit divisor size g) (todo : List Nat) :
    Ends (SupplyStop memoryLimit) (Restocking setup short memoryLimit divisor size)
      (todo.foldlM (fun g self => LocalAllocator.reset noCollect self g) g) :=
  Ends.foldlM todo restocking fun _ _ _ kept => kept.reset

end Restocking
end Growth
end ImmixGc.Guarantees
