import ImmixGc.Guarantees.BlockHistory
import ImmixGc.Guarantees.BlockOwnership

/-!
# The small heap as a whole

`BlockHistory` follows one block, `BlockOwnership` the places of all blocks. Here each block
has the invariant of the one with the interval and the holes that its place in the other
offers: a listed block offers what the sweep published, a held one what is left to its
allocator, any other nothing.
-/
namespace ImmixGc.Guarantees
open Source Foundation

/-! ## One block -/

section Frame
variable {memory memory' : Memory} {headers : Nat → LineHeader} {block : Nat} {layout : Layout}
  {free holes : List (Nat × Nat)} {extent : Nat → Nat}

/-- The header of an object lies in the lines of the block. -/
theorem BlockOk.header_within (ok : BlockOk memory headers block layout free extent) {object : Nat}
    (walked : layout.Walked object) : Block.start block ≤ object ∧ object + 16 ≤ Block.stop block := by
  have shape := ok.shape object walked
  simp only [objectStop, sizeofObject] at shape
  exact ⟨ok.start_le walked, by omega⟩

/-- Only the lines of the block matter. -/
theorem BlockOk.frame (ok : BlockOk memory headers block layout free extent)
    (loads : ∀ a, Block.start block ≤ a → a < Block.stop block → memory'.load a = memory.load a) :
    BlockOk memory' headers block layout free extent := by
  refine ok.congr (fun object walked => ?_) (fun i bound contains short => ?_) (fun _ => rfl)
    (fun _ _ _ => rfl)
  · have := ok.header_within walked
    exact loads object this.1 (by omega)
  · obtain ⟨walk, -⟩ := ok.walk i bound contains
    have first := (Links.within (ok.grows i) walk.path).1
    refine loads _ ?_ ?_
    · simp only [Block.line] at first
      omega
    · have := line_le block (show i + 1 ≤ lineCount from bound)
      rw [line_lineCount, ← line_succ] at this
      omega

/-- Only the lines of the block matter to the marks in it. -/
theorem MarksOk.frame {header : Block} (marks : MarksOk memory header block layout)
    (ok : BlockOk memory header.lineHeaders block layout free extent)
    (loads : ∀ a, Block.start block ≤ a → a < Block.stop block → memory'.load a = memory.load a) :
    MarksOk memory' header block layout := by
  have same : ∀ object, layout.Walked object →
      Object.size memory' object = Object.size memory object ∧
      Object.isMarked memory' object = Object.isMarked memory object := by
    intro object walked
    have := ok.header_within walked
    exact ⟨loads object this.1 (by omega),
      Object.isMarked_congr (loads (object + 8) (by omega) (by omega))⟩
  refine ⟨fun i object member isMarked => ?_, fun object walked isMarked => ?_⟩
  · obtain ⟨size, mark⟩ := same object ⟨i, member⟩
    rw [size]
    exact marks.guarded i object member (mark ▸ isMarked)
  · exact marks.block object walked ((same object walked).2 ▸ isMarked)

/-- A chain of holes, with nothing left before the first of them. -/
theorem BlockOk.opened (ok : BlockOk memory headers block layout free extent) :
    BlockOk memory headers block layout ((Block.start block, Block.start block) :: free) extent := by
  have aligned := ok.aligned
  refine ⟨aligned, ok.absent, ok.walk, ok.shape, ok.extents, ok.apart, ⟨?_, ?_⟩, ?_, ?_, ?_, ?_⟩
  · intro hole member
    rcases List.mem_cons.mp member with rfl | old
    · simp only [Block.start, Block.stop, blockSize, lineSize, wordSize] at *
      omega
    · exact ok.freeOk.within hole old
  · refine List.Pairwise.cons (fun hole member => ?_) ok.freeOk.apart
    exact Or.inl (ok.freeOk.within hole member).2.1
  · intro object walked hole member
    rcases List.mem_cons.mp member with rfl | old
    · exact Or.inr (ok.start_le walked)
    · exact ok.outside object walked hole old
  · intro i bound contains short
    refine ⟨(ok.terminator i bound contains short).1, fun hole member => ?_⟩
    rcases List.mem_cons.mp member with rfl | old
    · obtain ⟨walk, -⟩ := ok.walk i bound contains
      have first := (Links.within (ok.grows i) walk.path).1
      simp only [Block.line] at first
      exact Or.inr (by omega)
    · exact (ok.terminator i bound contains short).2 hole old
  · intro i bound hole member low high
    rcases List.mem_cons.mp member with rfl | old
    · dsimp only at low high
      omega
    · exact ok.freeLines i bound hole old low high
  · intro i bound hole member contains low high some
    rcases List.mem_cons.mp member with rfl | old
    · dsimp only at some
      omega
    · exact ok.frontier i bound hole old contains low high some

/-- Nothing that walks or marks read lies in the payload of a whole object. -/
theorem BlockOk.payload_unread {memory : Memory} {headers : Nat → LineHeader} {block : Nat}
    {layout : Layout} {free : List (Nat × Nat)} {extent : Nat → Nat}
    (ok : BlockOk memory headers block layout free extent) {object a : Nat}
    (walked : layout.Walked object)
    (payload : object + sizeofObject ≤ a ∧ a < object + extent object) :
    (∀ x, layout.Walked x → x ≠ a ∧ x + 8 ≠ a) ∧
      ∀ i < lineCount, (headers i).containsObject = true →
        layout.finish i < Block.line block i + lineSize → layout.finish i ≠ a := by
  refine ⟨fun x hx => ?_, fun i bound contains short same => ?_⟩
  · have large := (ok.extents x hx).1
    by_cases same : x = object
    · subst same
      simp only [sizeofObject] at *
      omega
    · have apart := ok.apart x object hx walked same
      simp only [sizeofObject] at *
      omega
  · have apart := (ok.terminator i bound contains short).1 object walked
    simp only [sizeofObject] at *
    omega

end Frame

/-- Only the lines of the block and its line headers matter to a view. -/
theorem ViewOk.frame {block : Nat} {s s' : BlockView} {layout : Layout} {holes : List (Nat × Nat)}
    {extent : Nat → Nat} (view : ViewOk block s layout holes extent)
    (loads : ∀ a, Block.start block ≤ a → a < Block.stop block →
      s'.memory.load a = s.memory.load a)
    (headers : s'.header.lineHeaders = s.header.lineHeaders)
    (same : s'.cursor = s.cursor ∧ s'.limit = s.limit ∧ s'.next = s.next)
    (live : ∀ o ∈ s'.live, o ∈ s.live) : ViewOk block s' layout holes extent := by
  obtain ⟨cursor, limit, next⟩ := same
  refine ⟨?_, ?_, fun o member => ?_⟩
  · rw [headers, cursor, limit]
    exact view.ok.frame loads
  · rw [next]
    refine view.chain.congr fun hole member => ?_
    have within := view.ok.freeOk.within hole (List.mem_cons_of_mem _ member)
    have room := view.chain.room hole member
    exact ⟨loads _ (by omega) (by omega), loads _ (by omega) (by omega)⟩
  · obtain ⟨walked, sized, whole⟩ := view.live o (live o member)
    have := view.ok.header_within walked
    exact ⟨walked, (loads o.1 this.1 (by omega)).trans sized, whole⟩

/-- The objects that the client holds in block `b`, with their sizes. -/
def liveIn (g : Gc) (b : Nat) : List (Nat × Nat) :=
  (g.history.live.filter fun a => Block.from a.object == b).map fun a => (a.object, a.size)

theorem mem_liveIn {g : Gc} {b : Nat} {o : Nat × Nat} : o ∈ liveIn g b ↔
    ∃ a ∈ g.history.live, Block.from a.object = b ∧ (a.object, a.size) = o := by
  simp only [liveIn, List.mem_map, List.mem_filter, beq_iff_eq, and_assoc]

/-- Block `b` as whoever may fill it sees it. -/
def viewOf (g : Gc) (b cursor limit next : Nat) : BlockView :=
  ⟨g.memory, g.block b, cursor, limit, next, liveIn g b⟩

/-- All objects have all their bytes, as long as no hole was published inside one. -/
def Exact (g : Gc) (layout : Layout) (extent : Nat → Nat) : Prop :=
  g.history.holeInObject = false → AllBytes g.memory layout extent

/-- Block `b` can be filled through an interval and a chain of holes behind it. -/
def Viewed (g : Gc) (b cursor limit next : Nat) : Prop :=
  ∃ layout holes extent, ViewOk b (viewOf g b cursor limit next) layout holes extent ∧
    ((cursor, limit) :: holes).Pairwise (fun x y => x.2 ≤ y.1) ∧ Exact g layout extent

/-- No object was added, and no flag taken back. -/
structure NoNew (h h' : History) : Prop where
  live : h'.live.Sublist h.live
  flag : h'.holeInObject = false → h.holeInObject = false

theorem NoNew.refl (h : History) : NoNew h h := ⟨List.Sublist.refl _, id⟩

/-- The same objects, in a state with no fewer flags. -/
theorem Exact.congr {g g' : Gc} {layout : Layout} {extent : Nat → Nat} (exact : Exact g layout extent)
    (flag : g'.history.holeInObject = false → g.history.holeInObject = false)
    (size : ∀ object, layout.Walked object →
      Object.size g'.memory object = Object.size g.memory object) : Exact g' layout extent :=
  fun clear object walked => (exact (flag clear) object walked).trans (size object walked).symm

/-- Block `b` can be walked, but not filled. -/
abbrev Full (g : Gc) (b : Nat) : Prop := Viewed g b (Block.stop b) (Block.stop b) null

namespace Viewed
variable {g g' : Gc} {b cursor limit next : Nat}

theorem frame (view : Viewed g b cursor limit next)
    (flag : g'.history.holeInObject = false → g.history.holeInObject = false)
    (loads : ∀ a, Block.start b ≤ a → a < Block.stop b → g'.memory.load a = g.memory.load a)
    (headers : (g'.block b).lineHeaders = (g.block b).lineHeaders)
    (live : ∀ a ∈ g'.history.live, Block.from a.object = b → a ∈ g.history.live) :
    Viewed g' b cursor limit next := by
  obtain ⟨layout, holes, extent, ok, ordered, exact⟩ := view
  refine ⟨layout, holes, extent, ok.frame loads headers ⟨rfl, rfl, rfl⟩ fun o member => ?_, ordered,
    exact.congr flag fun object walked => ?_⟩
  · obtain ⟨a, inLive, here, same⟩ := mem_liveIn.mp member
    exact mem_liveIn.mpr ⟨a, live a inLive here, here, same⟩
  · have within := ok.ok.header_within walked
    exact loads object within.1 (by omega)

/-- Giving up the interval and the holes. -/
theorem full (view : Viewed g b cursor limit next) : Full g b := by
  obtain ⟨layout, holes, extent, ok, -, exact⟩ := view
  exact ⟨layout, [], extent, ⟨(ok.ok.subset (List.nil_sublist _)).full, ⟨rfl, by simp, by simp⟩, ok.live⟩,
    List.pairwise_singleton _ _, exact⟩

theorem nextHole (view : Viewed g b cursor limit next) (some : next ≠ null) :
    Viewed g b next (g.memory.load next) (g.memory.load (next + 8)) := by
  obtain ⟨layout, holes, extent, ok, ordered, exact⟩ := view
  cases holes with
  | nil => exact absurd ok.chain.links some
  | cons hole rest =>
    obtain ⟨first, links⟩ := ok.chain.links
    have limit := ok.chain.limits hole (by simp)
    dsimp only [viewOf] at first limit
    refine ⟨layout, rest, extent, ⟨?_, ⟨?_, fun h member => ok.chain.limits h (by simp [member]),
      fun h member => ok.chain.room h (by simp [member])⟩, ok.live⟩, ?_, exact⟩
    · dsimp only [viewOf]
      rw [first, limit]
      exact ok.ok.subset (List.sublist_cons_self _ _)
    · rw [viewOf, first]
      exact links
    · rw [first, limit]
      exact List.Pairwise.of_cons ordered

theorem within (view : Viewed g b cursor limit next) :
    b % blockSize = 0 ∧ cursor % wordSize = 0 ∧ Block.start b ≤ cursor ∧ cursor ≤ limit ∧
      limit ≤ Block.stop b := by
  obtain ⟨layout, holes, extent, ok, -⟩ := view
  obtain ⟨word, low, le, high, -⟩ := ok.ok.freeOk.within (cursor, limit) (by simp [viewOf])
  exact ⟨ok.ok.aligned, word, low, le, high⟩

/-- A write into the payload of an object of the block. -/
theorem write (view : Viewed g b cursor limit next) {a : Allocation} (owned : a ∈ g.history.live)
    (here : Block.from a.object = b) {address : Nat}
    (payload : a.object + sizeofObject ≤ address ∧ address < a.object + a.size) (value : Nat) :
    Viewed { g with memory := g.memory.store address value } b cursor limit next := by
  obtain ⟨layout, holes, extent, ok, ordered, exact⟩ := view
  have member := mem_liveIn.mpr ⟨a, owned, here, rfl⟩
  obtain ⟨walked, -, whole⟩ := ok.live _ member
  refine ⟨layout, holes, extent, ok.write value member payload, ordered,
    exact.congr id fun object inWalk => store_other _ _ _ _ ?_⟩
  exact ((ok.ok.payload_unread walked (whole ▸ payload)).1 object inWalk).1

/-- A block without objects. -/
theorem fresh (aligned : b % blockSize = 0)
    (headers : (g.block b).lineHeaders = fun _ => LineHeader.clear)
    (none : ∀ a ∈ g.history.live, Block.from a.object ≠ b) :
    Viewed g b (Block.start b) (Block.stop b) null := by
  refine ⟨Layout.empty, [], fun _ => 0, ⟨?_, ⟨rfl, by simp, by simp⟩, fun o member => ?_⟩,
    List.pairwise_singleton _ _, fun _ object walked => ?_⟩
  · dsimp only [viewOf]
    rw [headers]
    exact BlockOk.free_block _ aligned _
  · obtain ⟨a, inLive, here, -⟩ := mem_liveIn.mp member
    exact absurd here (none a inLive)
  · obtain ⟨i, member⟩ := walked
    exact absurd member List.not_mem_nil

end Viewed

/-! ## All blocks -/

/-- Each heap fills the front of its mapping. -/
structure HeapBounds (smallMap largeMap : Nat) (global : GlobalAllocator) : Prop where
  bounds : Bounds global
  large : blockSize ≤ global.largeHeapSize
  smallStart : 0 < global.smallHeapStart ∧ global.smallHeapStart % blockSize = 0 ∧
    smallMap ≤ global.smallHeapStart ∧ global.smallHeapStart ≤ smallMap + blockSize
  smallStop : global.smallHeapStop = global.smallHeapStart + global.smallHeapSize
  whole : global.smallHeapSize % blockSize = 0
  largeStart : largeMap ≤ global.largeHeapStart ∧ global.largeHeapStart ≤ largeMap + blockSize
  largeStop : global.largeHeapStop = global.largeHeapStart + global.largeHeapSize
  disjoint : smallMap + global.memoryLimit ≤ largeMap ∨ largeMap + global.memoryLimit ≤ smallMap

namespace HeapBounds
variable {smallMap largeMap : Nat} {global global' : GlobalAllocator}

theorem congr (heap : HeapBounds smallMap largeMap global) (same : space global' = space global) :
    HeapBounds smallMap largeMap global' := by
  obtain ⟨⟨small, total, limit, start⟩, large, smallStart, smallStop, whole, largeStart, largeStop,
    disjoint⟩ := heap
  simp only [space, Space.mk.injEq] at same
  obtain ⟨e₁, e₂, e₃, e₄, e₅, e₆, e₇⟩ := same
  rw [← e₃] at small
  rw [← e₃, ← e₆, ← e₇] at total
  rw [← e₇] at limit
  rw [← e₄, ← e₇] at start
  rw [← e₆] at large
  rw [← e₁] at smallStart
  rw [← e₁, ← e₂, ← e₃] at smallStop
  rw [← e₃] at whole
  rw [← e₄] at largeStart
  rw [← e₄, ← e₅, ← e₆] at largeStop
  rw [← e₇] at disjoint
  exact ⟨⟨small, total, limit, start⟩, large, smallStart, smallStop, whole, largeStart, largeStop,
    disjoint⟩

theorem sized (heap : HeapBounds smallMap largeMap global) : Sized global :=
  ⟨heap.bounds.limit, heap.bounds.total⟩

theorem wholeBlocks (heap : HeapBounds smallMap largeMap global) :
    WholeBlocks global.smallHeapStart global.smallHeapStop := by
  have stop := heap.smallStop
  have whole := heap.whole
  refine ⟨heap.smallStart.1, by omega, ?_⟩
  rw [stop, Nat.add_sub_cancel_left]
  exact whole

/-- The heaps stay apart: each leaves at least one block of its mapping to the other. -/
theorem spaces (heap : HeapBounds smallMap largeMap global) :
    global.smallHeapStop ≤ global.largeHeapStart ∨ global.largeHeapStop ≤ global.smallHeapStart := by
  obtain ⟨⟨small, total, limit, start⟩, large, smallStart, smallStop, whole, largeStart, largeStop,
    disjoint⟩ := heap
  simp only [blockSize] at *
  omega

theorem aligned (heap : HeapBounds smallMap largeMap global) {b : Nat} (member : b ∈ global.blocks) :
    b % blockSize = 0 := by
  obtain ⟨i, rfl, -⟩ := mem_blocks.mp member
  have := heap.smallStart.2.1
  simp only [blockSize] at *
  omega

theorem block_within (heap : HeapBounds smallMap largeMap global) {b : Nat}
    (member : b ∈ global.blocks) : global.smallHeapStart ≤ b ∧ Block.stop b ≤ global.smallHeapStop := by
  obtain ⟨i, rfl, inside⟩ := mem_blocks.mp member
  have stop := heap.smallStop
  have whole := heap.whole
  simp only [Block.stop, blockSize] at *
  omega

/-- A pointer into the small heap points into one of its blocks. -/
theorem from_mem (heap : HeapBounds smallMap largeMap global) {pointer : Nat}
    (inside : global.inSmallHeap pointer = true) : Block.from pointer ∈ global.blocks := by
  rw [GlobalAllocator.inSmallHeap, Bool.and_eq_true, decide_eq_true_iff, decide_eq_true_iff] at inside
  have start := heap.smallStart.2.1
  refine mem_blocks.mpr ⟨(pointer - global.smallHeapStart) / blockSize, ?_, ?_⟩
  · simp only [Block.from, blockSize] at *
    omega
  · simp only [Block.from, blockSize] at *
    omega

end HeapBounds

/-- The lines of different blocks are different. -/
theorem lines_apart {b c a : Nat} (hb : b % blockSize = 0) (hc : c % blockSize = 0)
    (different : c ≠ b) (low : Block.start c ≤ a) (high : a < Block.stop c) :
    a < Block.start b ∨ Block.stop b ≤ a := by
  simp only [Block.start, Block.stop, blockSize, lineSize] at *
  omega

/-- The objects share no byte. -/
def ShareNothing (x y : Allocation) : Prop :=
  x.object + x.size ≤ y.object ∨ y.object + y.size ≤ x.object

/-- An object of the large heap lies in it with all its bytes. -/
def InLarge (global : GlobalAllocator) (a : Allocation) : Prop :=
  global.inLargeHeap a.object = true ∧ a.object + a.size ≤ global.largeHeapStop

/-- What does not change during a run: the two mappings and the registered allocators. -/
structure Setup where
  env : Env
  smallMap : Nat
  largeMap : Nat
  registered : List Nat

/-- What holds of the small heap at all times. Blocks that the heap grows over without
pushing them have clear headers, because nobody used their memory before. -/
structure HeapShape (setup : Setup) (g : Gc) : Prop where
  bounds : HeapBounds setup.smallMap setup.largeMap g.global
  allocators : g.localAllocators = setup.registered
  beyond : ∀ b, b ∉ g.global.blocks → (g.block b).lineHeaders = fun _ => LineHeader.clear
  homes : ∀ a ∈ g.history.live, Block.from a.object ∈ g.global.blocks ∨ InLarge g.global a
  apart : g.history.live.Pairwise ShareNothing
  finalizers : StoresOnly setup.env ∨ Hash.create 8 = .ok g.global.finalizers

section Heap
variable {setup : Setup} {g g' : Gc}

theorem blocks_congr (same : space g'.global = space g.global) :
    g'.global.blocks = g.global.blocks := by
  simp only [space, Space.mk.injEq] at same
  rw [GlobalAllocator.blocks, GlobalAllocator.blocks, same.1, same.2.1]

theorem inLarge_congr (same : space g'.global = space g.global) {a : Allocation} :
    InLarge g'.global a ↔ InLarge g.global a := by
  simp only [space, Space.mk.injEq] at same
  rw [InLarge, InLarge, GlobalAllocator.inLargeHeap, GlobalAllocator.inLargeHeap, same.2.2.2.1,
    same.2.2.2.2.1]

/-- The objects of the large heap lie behind or in front of every block. -/
theorem InLarge.apart {smallMap largeMap : Nat} (heap : HeapBounds smallMap largeMap g.global)
    {a : Allocation} (large : InLarge g.global a) {b : Nat} (member : b ∈ g.global.blocks) :
    Block.stop b ≤ a.object ∨ (a.object < b ∧ a.object + a.size ≤ b) := by
  obtain ⟨inside, within⟩ := large
  rw [GlobalAllocator.inLargeHeap, Bool.and_eq_true, decide_eq_true_iff, decide_eq_true_iff] at inside
  have bounds := heap.block_within member
  have spaces := heap.spaces
  omega

theorem InLarge.from_ne {smallMap largeMap : Nat} (heap : HeapBounds smallMap largeMap g.global)
    {a : Allocation} (large : InLarge g.global a) {b : Nat} (member : b ∈ g.global.blocks) :
    Block.from a.object ≠ b := by
  have apart := large.apart heap member
  simp only [Block.from, Block.stop, blockSize] at *
  omega

theorem HeapShape.congr (shape : HeapShape setup g)
    (same : space g'.global = space g.global) (allocators : g'.localAllocators = g.localAllocators)
    (headers : ∀ b, b ∉ g.global.blocks → (g'.block b).lineHeaders = (g.block b).lineHeaders)
    (live : g'.history.live.Sublist g.history.live)
    (finalizers : g'.global.finalizers = g.global.finalizers) :
    HeapShape setup g' := by
  refine ⟨shape.bounds.congr same, allocators.trans shape.allocators, ?_, ?_, ?_, ?_⟩
  · rw [blocks_congr same]
    exact fun b outside => (headers b outside).trans (shape.beyond b outside)
  · rw [blocks_congr same]
    exact fun a member => (shape.homes a (live.subset member)).imp_right (inLarge_congr same).mpr
  · exact shape.apart.sublist live
  · rw [finalizers]
    exact shape.finalizers

/-- The state before a collection: every block can be walked. -/
structure Walkable (setup : Setup) (g : Gc) : Prop where
  shape : HeapShape setup g
  full : ∀ b ∈ g.global.blocks, Full g b

/-- The live objects of block `b` are walked, with all their bytes. -/
structure Intact (g : Gc) (b : Nat) (layout : Layout) (extent : Nat → Nat) : Prop where
  ok : BlockOk g.memory (g.block b).lineHeaders b layout [] extent
  live : ∀ o ∈ liveIn g b,
    layout.Walked o.1 ∧ Object.size g.memory o.1 = o.2 ∧ extent o.1 = o.2
  exact : Exact g layout extent

theorem Viewed.intact {b cursor limit next : Nat} (view : Viewed g b cursor limit next) :
    ∃ layout extent, Intact g b layout extent := by
  obtain ⟨layout, holes, extent, ok, -, exact⟩ := view
  exact ⟨layout, extent, ok.ok.subset (List.nil_sublist _), ok.live, exact⟩

/-- Marked objects of block `b` are guarded by their lines. -/
def Scanned (g : Gc) (b : Nat) : Prop :=
  ∃ layout extent, Intact g b layout extent ∧ MarksOk g.memory (g.block b) b layout

/-- The state while a collection marks. -/
structure Marking (setup : Setup) (g : Gc) : Prop where
  shape : HeapShape setup g
  scanned : ∀ b ∈ g.global.blocks, Scanned g b

theorem Intact.frame {b : Nat} {layout : Layout} {extent : Nat → Nat} (intact : Intact g b layout extent)
    (flag : g'.history.holeInObject = false → g.history.holeInObject = false)
    (loads : ∀ a, Block.start b ≤ a → a < Block.stop b → g'.memory.load a = g.memory.load a)
    (headers : (g'.block b).lineHeaders = (g.block b).lineHeaders)
    (live : ∀ a ∈ g'.history.live, Block.from a.object = b → a ∈ g.history.live) :
    Intact g' b layout extent := by
  have size : ∀ object, layout.Walked object →
      Object.size g'.memory object = Object.size g.memory object := by
    intro object walked
    have := intact.ok.header_within walked
    exact loads object this.1 (by omega)
  refine ⟨by rw [headers]; exact intact.ok.frame loads, fun o member => ?_, intact.exact.congr flag size⟩
  obtain ⟨a, inLive, here, same⟩ := mem_liveIn.mp member
  obtain ⟨walked, sized, whole⟩ := intact.live o (mem_liveIn.mpr ⟨a, live a inLive here, here, same⟩)
  exact ⟨walked, (size o.1 walked).trans sized, whole⟩

theorem Scanned.frame {b : Nat} (scanned : Scanned g b)
    (flag : g'.history.holeInObject = false → g.history.holeInObject = false)
    (loads : ∀ a, Block.start b ≤ a → a < Block.stop b → g'.memory.load a = g.memory.load a)
    (header : g'.block b = g.block b)
    (live : ∀ a ∈ g'.history.live, Block.from a.object = b → a ∈ g.history.live) :
    Scanned g' b := by
  obtain ⟨layout, extent, intact, marks⟩ := scanned
  refine ⟨layout, extent, intact.frame flag loads (congrArg Block.lineHeaders header) live, ?_⟩
  rw [header]
  exact marks.frame intact.ok loads

theorem OnlyMarks.outside {memory memory' : Memory} {headers : Nat → LineHeader} {block : Nat}
    {layout : Layout} {free : List (Nat × Nat)} {extent : Nat → Nat}
    (only : OnlyMarks layout memory memory')
    (ok : BlockOk memory headers block layout free extent) {a : Nat}
    (away : a < Block.start block ∨ Block.stop block ≤ a) : memory'.load a = memory.load a := by
  refine only.other a fun object walked => ?_
  have := ok.header_within walked
  omega

/-! ## Unmarking and marking -/

theorem unmarkBlock_eq {b : Nat} {memory : Memory} {header : Block}
    (ran : Collector.unmarkLines b lineCount 0 (g.memory, { g.block b with marked := 0 }) =
      (memory, header)) :
    Collector.unmarkBlock g b = { g with memory := memory, block := store g.block b header } := by
  rw [Collector.unmarkBlock, ran]

theorem Intact.congr_extent {b : Nat} {layout : Layout} {extent extent' : Nat → Nat}
    (intact : Intact g b layout extent)
    (same : ∀ object, layout.Walked object → extent' object = extent object) :
    Intact g b layout extent' := by
  refine ⟨intact.ok.congr_extent same, fun o member => ?_, fun clear object walked => ?_⟩
  · obtain ⟨walked, sized, whole⟩ := intact.live o member
    exact ⟨walked, sized, (same o.1 walked).trans whole⟩
  · exact (same object walked).trans (intact.exact clear object walked)

/-- Every block can be walked, as `layout` and `extent` say. -/
def Laid (g : Gc) (layout : Nat → Layout) (extent : Nat → Nat) : Prop :=
  ∀ b ∈ g.global.blocks, Intact g b (layout b) extent

/-- The blocks share one `extent`: each takes it at the objects of its own lines. -/
theorem laid_of_intact (intact : ∀ b ∈ g.global.blocks, ∃ layout extent, Intact g b layout extent) :
    ∃ layout extent, Laid g layout extent := by
  have some : Nonempty Layout := ⟨.empty⟩
  choose! layout extents intact using intact
  refine ⟨layout, fun o => extents (Block.from o) o, fun b member =>
    (intact b member).congr_extent fun o walked => ?_⟩
  have ok := (intact b member).ok
  have within := ok.header_within walked
  have home : Block.from o = b := by
    refine from_eq ok.aligned ?_ (by omega)
    simp only [Block.start] at within
    omega
  rw [home]

/-- One block of `Collector_unmarkSmallObjects`. -/
theorem Intact.unmarkBlock {b : Nat} {layout : Layout} {extent : Nat → Nat}
    (intact : Intact g b layout extent) :
    ∃ memory block, Collector.unmarkBlock g b = { g with memory := memory, block := block } ∧
      Intact { g with memory := memory, block := block } b layout extent ∧
      (∀ o, layout.Walked o → Object.marked memory o = 0) ∧ OnlyMarks layout g.memory memory ∧
      ∀ c, c ≠ b → block c = g.block c := by
  have ok : BlockOk g.memory ({ g.block b with marked := 0 } : Block).lineHeaders b layout [] extent :=
    intact.ok
  generalize ran : Collector.unmarkLines b lineCount 0
    (g.memory, { g.block b with marked := 0 }) = result
  obtain ⟨memory', header'⟩ := result
  obtain ⟨ok', only, clear, -⟩ := ok.clear_marks ran
  have size : ∀ object, layout.Walked object →
      Object.size memory' object = Object.size g.memory object :=
    fun object walked => only.other object fun x hx => (ok.ne_markWord hx).1 object walked
  refine ⟨memory', _, unmarkBlock_eq ran, ⟨?_, fun o member => ?_, intact.exact.congr id size⟩, clear,
    only, fun c different => store_other _ _ _ _ different⟩
  · dsimp only
    rw [store_same]
    exact ok'
  · obtain ⟨walked, sized, whole⟩ := intact.live o member
    exact ⟨walked, (size o.1 walked).trans sized, whole⟩

/-- What `Collector_unmarkSmallObjects` leaves when it has still to do the blocks of `rest`. -/
structure Unmarks (g : Gc) (layout : Nat → Layout) (extent : Nat → Nat) (rest : List Nat) (g' : Gc) :
    Prop where
  laid : Laid g' layout extent
  clear : ∀ b ∈ g.global.blocks, b ∉ rest → ∀ o, (layout b).Walked o → Object.marked g'.memory o = 0
  other : ∀ a, (∀ b ∈ g.global.blocks, ∀ o, (layout b).Walked o → a ≠ o + 8) →
    g'.memory.load a = g.memory.load a
  word : ∀ b ∈ g.global.blocks, ∀ o, (layout b).Walked o →
    g'.memory.load (o + 8) / 256 = g.memory.load (o + 8) / 256
  headers : ∀ b, b ∉ g.global.blocks → g'.block b = g.block b
  global : g'.global = g.global
  allocators : g'.localAllocators = g.localAllocators
  history : g'.history = g.history

theorem Unmarks.unmarkBlock {layout : Nat → Layout} {extent : Nat → Nat} {b : Nat} {rest : List Nat}
    (unmarks : Unmarks g layout extent (b :: rest) g') (hb : b ∈ g.global.blocks) :
    Unmarks g layout extent rest (Collector.unmarkBlock g' b) := by
  obtain ⟨laid, clear, other, word, headers, global, allocators, history⟩ := unmarks
  have inHeap : b ∈ g'.global.blocks := global ▸ hb
  obtain ⟨memory, block, unmarked, intact, cleared, only, others⟩ := (laid b inHeap).unmarkBlock
  rw [unmarked]
  have ok := (laid b inHeap).ok
  -- the mark words of other blocks
  have apart : ∀ c ∈ g.global.blocks, c ≠ b → ∀ a, Block.start c ≤ a → a < Block.stop c →
      memory.load a = g'.memory.load a := fun c hc different a low high =>
    only.outside ok (lines_apart ok.aligned (laid c (global ▸ hc)).ok.aligned different low high)
  have same : ∀ c ∈ g.global.blocks, c ≠ b → ∀ o, (layout c).Walked o →
      memory.load (o + 8) = g'.memory.load (o + 8) := by
    intro c hc different o walked
    have within := (laid c (global ▸ hc)).ok.header_within walked
    exact apart c hc different _ (by omega) (by omega)
  refine ⟨fun c hc => ?_, fun c hc outside o walked => ?_, fun a away => ?_, fun c hc o walked => ?_,
    fun c outside => ?_, global, allocators, history⟩
  · by_cases here : c = b
    · exact here ▸ intact
    · have hc : c ∈ g'.global.blocks := hc
      exact (laid c hc).frame id (apart c (global ▸ hc) here) (congrArg Block.lineHeaders (others c here))
        fun _ member _ => member
  · by_cases here : c = b
    · exact cleared o (here ▸ walked)
    · have before := clear c hc (fun member => (List.mem_cons.mp member).elim here outside) o walked
      rw [Object.marked] at before ⊢
      dsimp only
      rw [same c hc here o walked]
      exact before
  · exact (only.other a (away b hb)).trans (other a away)
  · by_cases here : c = b
    · subst here
      exact (only.word o walked).trans (word c hc o walked)
    · dsimp only
      rw [same c hc here o walked]
      exact word c hc o walked
  · refine (others c ?_).trans (headers c outside)
    rintro rfl
    exact outside hb

theorem Laid.unmarkSmallObjects {layout : Nat → Layout} {extent : Nat → Nat}
    (laid : Laid g layout extent) :
    Unmarks g layout extent [] (Collector.unmarkSmallObjects g) := by
  have run : ∀ (rest : List Nat) (g' : Gc), (∀ b ∈ rest, b ∈ g.global.blocks) →
      Unmarks g layout extent rest g' →
      Unmarks g layout extent [] (rest.foldl Collector.unmarkBlock g') := by
    intro rest
    induction rest with
    | nil => exact fun _ _ unmarks => unmarks
    | cons b rest ih =>
      intro g' inHeap unmarks
      exact ih _ (fun c member => inHeap c (List.mem_cons_of_mem _ member))
        (unmarks.unmarkBlock (inHeap b List.mem_cons_self))
  exact run g.global.blocks g (fun _ member => member)
    ⟨laid, fun b member outside => absurd member outside, fun _ _ => rfl, fun _ _ _ _ => rfl,
      fun _ _ => rfl, rfl, rfl, rfl⟩

theorem Walkable.unmarkSmallObjects (walkable : Walkable setup g) :
    Marking setup (Collector.unmarkSmallObjects g) := by
  obtain ⟨layout, extent, laid⟩ := laid_of_intact fun b member => (walkable.full b member).intact
  obtain ⟨laid', clear, -, -, headers, global, allocators, history⟩ := laid.unmarkSmallObjects
  refine ⟨walkable.shape.congr (by rw [global]) allocators
    (fun b outside => congrArg Block.lineHeaders (headers b outside)) (by rw [history]) (by rw [global]),
    fun b member => ⟨layout b, extent, laid' b member, ?_⟩⟩
  exact BlockOk.marksOk_of_unmarked fun o walked =>
    Object.isMarked_of_marked (clear b (global ▸ member) List.not_mem_nil o walked)

theorem Marking.congr (marking : Marking setup g)
    (same : space g'.global = space g.global) (allocators : g'.localAllocators = g.localAllocators)
    (memory : g'.memory = g.memory) (headers : g'.block = g.block)
    (history : g'.history.live = g.history.live ∧ g'.history.holeInObject = g.history.holeInObject)
    (finalizers : g'.global.finalizers = g.global.finalizers) :
    Marking setup g' := by
  refine ⟨marking.shape.congr same allocators (fun _ _ => by rw [headers])
    (by rw [history.1]) finalizers, ?_⟩
  rw [blocks_congr same]
  exact fun b member => (marking.scanned b member).frame (fun clear => history.2 ▸ clear)
    (fun a _ _ => by rw [memory]) (congrFun headers b) fun a inLive _ => history.1 ▸ inLive

/-- `Collector_findAndMarkSmallObject`. -/
theorem Marking.findAndMarkSmallObject (marking : Marking setup g)
    {pointer : Nat} (inside : g.global.inSmallHeap pointer = true)
    (success : Collector.findAndMarkSmallObject pointer g = .ok g') :
    Marking setup g' := by
  rcases findAndMark_cases success with rfl | ⟨i, object, found, -, rfl⟩
  · exact marking
  have hb := marking.shape.bounds.from_mem inside
  have inBlock : pointer < Block.stop (Block.from pointer) := by
    simp only [Block.from, Block.stop, blockSize]
    omega
  clear success inside
  generalize Block.from pointer = b at *
  obtain ⟨layout, extent, intact, marks⟩ := marking.scanned b hb
  have member : object ∈ layout.objects i := by
    rcases intact.ok.findSmallObject_total pointer inBlock with none | ⟨j, o, member, -, same⟩
    · rw [none] at found
      cases found
    · rw [same] at found
      simp only [Except.ok.injEq, Option.some.injEq, Prod.mk.injEq] at found
      obtain ⟨rfl, rfl⟩ := found
      exact member
  generalize ran : Collector.markSmallObject g.memory (g.block b) b i object = result
  obtain ⟨memory', header'⟩ := result
  obtain ⟨ok', marks', only, -⟩ := intact.ok.mark member marks ran
  have base : Marking setup
      { g with memory := memory', block := store g.block b header' } := by
    refine ⟨marking.shape.congr rfl rfl (fun c outside => ?_) (List.Sublist.refl _) rfl, fun c hc => ?_⟩
    · dsimp only
      rw [store_other]
      rintro rfl
      exact outside hb
    · by_cases same : c = b
      · subst same
        have size : ∀ x, layout.Walked x → Object.size memory' x = Object.size g.memory x :=
          fun x hx => only.other x fun y hy => (intact.ok.ne_markWord hy).1 x hx
        refine ⟨layout, extent, ⟨?_, fun o inLive => ?_, intact.exact.congr id size⟩, ?_⟩
        · dsimp only
          rw [store_same]
          exact ok'
        · obtain ⟨walked, sized, whole⟩ := intact.live o inLive
          exact ⟨walked, (size o.1 walked).trans sized, whole⟩
        · dsimp only
          rw [store_same]
          exact marks'
      · refine (marking.scanned c hc).frame id (fun a low high => ?_) (store_other _ _ _ _ same)
          fun a member _ => member
        exact only.outside intact.ok (lines_apart (marking.shape.bounds.aligned hb)
          (marking.shape.bounds.aligned hc) same low high)
  rw [Collector.scanObject]
  split
  · exact base.congr rfl rfl rfl rfl ⟨rfl, rfl⟩ rfl
  · exact base

theorem Marking.keeps : MarkingKeeps (Marking setup) where
  chunks _ _ marking _ := marking.congr rfl rfl rfl rfl ⟨rfl, rfl⟩ rfl
  roots _ _ marking := marking.congr rfl rfl rfl rfl ⟨rfl, rfl⟩ rfl
  script _ _ marking := marking.congr rfl rfl rfl rfl ⟨rfl, rfl⟩ rfl
  find _ _ _ marking inside success := marking.findAndMarkSmallObject inside success

/-! ## Writes of the client -/

theorem Scanned.write {b : Nat} (scanned : Scanned g b) {a : Allocation}
    (owned : a ∈ g.history.live) (here : Block.from a.object = b) {address : Nat}
    (payload : a.object + sizeofObject ≤ address ∧ address < a.object + a.size) (value : Nat) :
    Scanned { g with memory := g.memory.store address value } b := by
  obtain ⟨layout, extent, intact, marks⟩ := scanned
  obtain ⟨walked, sized, whole⟩ := intact.live (a.object, a.size) (mem_liveIn.mpr ⟨a, owned, here, rfl⟩)
  dsimp only at walked sized whole
  obtain ⟨objects, ends⟩ := intact.ok.payload_unread walked (whole ▸ payload)
  have load : ∀ x, x ≠ address → (g.memory.store address value).load x = g.memory.load x :=
    fun x other => store_other _ _ _ _ other
  have size : ∀ x, layout.Walked x →
      Object.size (g.memory.store address value) x = Object.size g.memory x :=
    fun x hx => load x (objects x hx).1
  have mark : ∀ x, layout.Walked x →
      Object.isMarked (g.memory.store address value) x = Object.isMarked g.memory x :=
    fun x hx => Object.isMarked_congr (load _ (objects x hx).2)
  refine ⟨layout, extent, ⟨?_, fun o member => ?_, intact.exact.congr id size⟩,
    fun i x member isMarked => ?_, fun x hx isMarked => ?_⟩
  · exact intact.ok.congr size (fun i bound contains short => load _ (ends i bound contains short))
      (fun _ => rfl) (fun _ _ _ => rfl)
  · obtain ⟨walkedO, sizedO, wholeO⟩ := intact.live o member
    exact ⟨walkedO, (size o.1 walkedO).trans sizedO, wholeO⟩
  · dsimp only at isMarked ⊢
    rw [mark x ⟨i, member⟩] at isMarked
    rw [size x ⟨i, member⟩]
    exact marks.guarded i x member isMarked
  · dsimp only at isMarked ⊢
    rw [mark x hx] at isMarked
    exact marks.block x hx isMarked

/-- The client owns no word outside its objects that a block of the heap reads. -/
theorem HeapShape.owned_cases (shape : HeapShape setup g)
    {address value : Nat} (success : g.clientStore address value = .ok g') :
    g' = { g with memory := g.memory.store address value } ∧
      ((∀ b ∈ g.global.blocks, address < Block.start b ∨ Block.stop b ≤ address) ∨
        ∃ a ∈ g.history.live, Block.from a.object ∈ g.global.blocks ∧
          a.object + sizeofObject ≤ address ∧ address < a.object + a.size) := by
  rw [Gc.clientStore] at success
  split at success
  · next owns =>
    refine ⟨(Except.ok.inj success).symm, ?_⟩
    rw [Gc.clientOwns, Bool.and_eq_true, Bool.or_eq_true, Bool.and_eq_true, List.any_eq_true] at owns
    rcases owns.2 with ⟨outside, -⟩ | ⟨a, member, payload⟩
    · left
      intro b hb
      have within := shape.bounds.block_within hb
      rw [Bool.not_eq_true', GlobalAllocator.inSmallHeap, Bool.and_eq_false_iff,
        decide_eq_false_iff_not, decide_eq_false_iff_not] at outside
      simp only [Block.start] at *
      omega
    · rw [Bool.and_eq_true, decide_eq_true_iff, decide_eq_true_iff] at payload
      rcases shape.homes a member with home | large
      · exact Or.inr ⟨a, member, home, payload⟩
      · left
        intro b hb
        have apart := large.apart shape.bounds hb
        simp only [Block.start] at *
        omega
  · cases success

/-- An object of block `b` reaches into no other block. -/
theorem Intact.payload_within {b : Nat} {layout : Layout} {extent : Nat → Nat}
    (intact : Intact g b layout extent) {a : Allocation} (owned : a ∈ g.history.live)
    (here : Block.from a.object = b) :
    Block.start b ≤ a.object ∧ a.object + a.size ≤ Block.stop b := by
  obtain ⟨walked, sized, -⟩ := intact.live (a.object, a.size) (mem_liveIn.mpr ⟨a, owned, here, rfl⟩)
  have shape := intact.ok.shape a.object walked
  dsimp only at walked sized
  rw [objectStop, sized] at shape
  exact ⟨intact.ok.start_le walked, shape.2.2.2.2⟩

theorem Marking.clientStore (marking : Marking setup g)
    {address value : Nat} (success : g.clientStore address value = .ok g') :
    Marking setup g' := by
  obtain ⟨rfl, place⟩ := marking.shape.owned_cases success
  refine ⟨marking.shape.congr rfl rfl (fun _ _ => rfl) (List.Sublist.refl _) rfl, fun b hb => ?_⟩
  rcases place with outside | ⟨a, owned, home, payload⟩
  · refine (marking.scanned b hb).frame id (fun x low high => store_other _ _ _ _ ?_) rfl
      fun _ member _ => member
    rintro rfl
    have := outside b hb
    omega
  · by_cases here : Block.from a.object = b
    · exact (marking.scanned b hb).write owned here payload value
    · refine (marking.scanned b hb).frame id (fun x low high => store_other _ _ _ _ ?_) rfl
        fun _ member _ => member
      rintro rfl
      obtain ⟨layout, extent, intact, -⟩ := marking.scanned _ home
      have within := intact.payload_within owned rfl
      have := lines_apart (marking.shape.bounds.aligned home) (marking.shape.bounds.aligned hb)
        (Ne.symm here) low high
      omega

/-! ## Finalizers -/

theorem deleteIfLoop_empty {σ : Type} (callback : Nat → Nat → σ → Result (Bool × σ))
    (count index : Nat) {self : Hash} (empty : self.entries = fun _ => Entry.zero) (state : σ) :
    Hash.deleteIfLoop callback count index self state = .ok (self, state) := by
  induction count generalizing index with
  | zero => rfl
  | succ count ih =>
    rw [Hash.deleteIfLoop, empty, if_neg (fun wrong => by cases wrong)]
    exact ih (index + 1)

/-- With no finalizer registered, the phase does nothing. -/
theorem finalizeObjects_empty (env : Env) (empty : Hash.create 8 = .ok g.global.finalizers) :
    Collector.finalizeObjects env g = .ok g := by
  have created : Hash.create 8 = .ok ⟨fun _ => Entry.zero, 7, 0, 0⟩ := rfl
  have table := Except.ok.inj (empty.symm.trans created)
  have kept : Hash.clearTombstones g.global.finalizers = .ok g.global.finalizers := by
    rw [table]
    rfl
  rw [Collector.finalizeObjects, Hash.deleteIf, deleteIfLoop_empty _ _ _ (by rw [table]), ok_bind]
  dsimp only
  rw [kept]
  rfl

theorem Marking.callFinalizer (marking : Marking setup g)
    (stores : StoresOnly setup.env) {callback object : Nat}
    (success : Collector.callFinalizer setup.env callback object g = .ok g') :
    Marking setup g' :=
  callFinalizer_keeps (fun _ marking => marking.congr rfl rfl rfl rfl ⟨rfl, rfl⟩ rfl)
    (fun _ _ _ _ marking stored => marking.clientStore stored) (Or.inl stores) marking success

theorem Marking.finalizeObjects (marking : Marking setup g)
    (success : Collector.finalizeObjects setup.env g = .ok g') :
    Marking setup g' := by
  rcases marking.shape.finalizers with stores | empty
  · refine finalizeObjects_keeps (fun g finalizers marking => ?_)
      (fun _ _ _ _ marking called => marking.callFinalizer stores called) marking success
    obtain ⟨⟨bounds, allocators, beyond, homes, apart, -⟩, scanned⟩ := marking
    exact ⟨⟨bounds.congr rfl, allocators, beyond, homes, apart, Or.inl stores⟩, fun b member =>
      (scanned b member).frame id (fun _ _ _ => rfl) rfl fun _ member _ => member⟩
  · rw [finalizeObjects_empty setup.env empty] at success
    exact Except.ok.inj success ▸ marking

/-! ## Sweeping -/

theorem SameBlock.isFree {x y : Block} (same : SameBlock x y) : x.isFree = y.isFree := by
  rw [Block.isFree, Block.isFree, same.flag]

/-- A marked block is published with its holes. -/
theorem Scanned.swept {b : Nat} {holes : List (Nat × Nat)} (scanned : Scanned g b)
    (isMarked : (g.block b).isMarked = true)
    (flag : g'.history.holeInObject = false → g.history.holeInObject = false ∧
      Collector.holeInObject g.memory (g.block b) b = false)
    (recycled : Recycled g.memory (g.block b) b holes g'.memory (g'.block b))
    (live : ∀ a ∈ g'.history.live, Block.from a.object = b →
      a ∈ g.history.live ∧ Object.isMarked g.memory a.object = true) :
    Full g' b ∧ (holes ≠ [] → (g'.block b).isRecyclable = true ∧
      ∃ hole, (g'.block b).firstFreeLine b = .ok hole ∧ hole ≠ null ∧
        Viewed g' b (Block.start b) (Block.start b) hole) := by
  obtain ⟨layout, extent, intact, marks⟩ := scanned
  obtain ⟨layout', extent', ok, kept, exact⟩ : ∃ layout' extent',
      BlockOk g'.memory (g'.block b).lineHeaders b layout' (holes.map (span b)) extent' ∧
      (∀ o ∈ (liveIn g b).filter (fun o => Object.isMarked g.memory o.1),
        layout'.Walked o.1 ∧ Object.size g'.memory o.1 = o.2 ∧ extent' o.1 = o.2) ∧
      Exact g' layout' extent' := by
    by_cases clear : g'.history.holeInObject = false
    · obtain ⟨before, noHole⟩ := flag clear
      obtain ⟨layout', extent', ok, kept, all⟩ :=
        intact.ok.sweptWhole marks recycled intact.live (intact.exact before) isMarked noHole
      exact ⟨layout', extent', ok, kept, fun _ => all⟩
    · obtain ⟨layout', extent', ok, kept⟩ := intact.ok.swept marks recycled intact.live
      exact ⟨layout', extent', ok, kept, fun wrong => absurd wrong clear⟩
  have live' : ∀ o ∈ liveIn g' b,
      layout'.Walked o.1 ∧ Object.size g'.memory o.1 = o.2 ∧ extent' o.1 = o.2 := by
    intro o member
    obtain ⟨a, inLive, here, rfl⟩ := mem_liveIn.mp member
    obtain ⟨old, isMarked⟩ := live a inLive here
    exact kept _ (List.mem_filter.mpr ⟨mem_liveIn.mpr ⟨a, old, here, rfl⟩, isMarked⟩)
  refine ⟨⟨layout', [], extent', ⟨(ok.subset (List.nil_sublist _)).full, ⟨rfl, by simp, by simp⟩, live'⟩,
    List.pairwise_singleton _ _, exact⟩, fun some => ?_⟩
  obtain ⟨hole, rest, rfl⟩ := List.exists_cons_of_ne_nil some
  obtain ⟨flag, first, chain⟩ := recycled.chain hole rest rfl
  obtain ⟨lines, top⟩ := recycled.lines hole List.mem_cons_self
  have bound : hole.1 < lineCount := Nat.lt_of_lt_of_le lines.some top
  refine ⟨by rw [Block.isRecyclable, flag]; rfl, Block.line b hole.1, ?_, line_pos b hole.1,
    layout', (hole :: rest).map (span b), extent', ⟨ok.opened, chain, live'⟩, ?_, exact⟩
  · rw [Block.firstFreeLine, first, check_of_true (by simp), ok_bind,
      check_of_true (by simpa using bound), ok_bind, Int.toNat_natCast, Nat.mul_comm]
    rfl
  · refine List.Pairwise.cons (fun x member => ?_) ?_
    · obtain ⟨y, -, rfl⟩ := List.mem_map.mp member
      simp only [span, Block.line]
      omega
    · rw [List.pairwise_map]
      exact recycled.ordered.imp fun before => line_le b before

namespace Slot

def cursor (g : Gc) : Slot → Nat
  | main self => (g.localAllocator self).cursor
  | overflow self => (g.localAllocator self).overflowCursor

def limit (g : Gc) : Slot → Nat
  | main self => (g.localAllocator self).limit
  | overflow self => (g.localAllocator self).overflowLimit

/-- Overflow blocks have no holes. -/
def next (g : Gc) : Slot → Nat
  | main self => (g.localAllocator self).next
  | overflow _ => null

end Slot

/-- The invariant: what the blocks on the lists and in the slots offer. -/
structure Stocked (setup : Setup) (slots : Slot → Prop) (g : Gc) (free recyclable : List Nat) :
    Prop where
  shape : HeapShape setup g
  full : ∀ b ∈ g.global.blocks, Full g b
  free : ∀ b ∈ free, (g.block b).isFree = true ∧ Viewed g b (Block.start b) (Block.stop b) null
  recyclable : ∀ b ∈ recyclable, (g.block b).isRecyclable = true ∧
    ∃ hole, (g.block b).firstFreeLine b = .ok hole ∧ hole ≠ null ∧
      Viewed g b (Block.start b) (Block.start b) hole
  held : ∀ x, slots x → Viewed g (x.block g) (x.cursor g) (x.limit g) (x.next g)

/-- The invariant, with one place for each block. -/
def Stock (setup : Setup) (slots : Slot → Prop) (g : Gc) : Prop :=
  ∃ free recyclable, Owned g slots free recyclable ∧ Stocked setup slots g free recyclable

theorem HeapShape.spaced (shape : HeapShape setup g) : Spaced setup.registered g :=
  ⟨shape.bounds.wholeBlocks, shape.bounds.sized, shape.allocators⟩

/-- A live object is marked where its block says so. -/
theorem HeapShape.isMarked_eq (shape : HeapShape setup g) {a : Allocation}
    (home : Block.from a.object ∈ g.global.blocks)
    (low : Block.start (Block.from a.object) ≤ a.object) :
    g.isMarked a.object = Object.isMarked g.memory a.object := by
  have within := shape.bounds.block_within home
  have spaces := shape.bounds.spaces
  have high : a.object < Block.stop (Block.from a.object) := by
    simp only [Block.from, Block.stop, blockSize]
    omega
  have small : g.global.inLargeHeap a.object = false := by
    rw [GlobalAllocator.inLargeHeap, Bool.and_eq_false_iff, decide_eq_false_iff_not,
      decide_eq_false_iff_not]
    simp only [Block.start] at low
    omega
  rw [Gc.isMarked, small]
  rfl

/-- A sweep puts every block where it belongs; no slot holds one yet. -/
theorem Marking.sweep (marking : Marking setup g) :
    Stock setup (fun _ => False) (GlobalAllocator.recycleBlocks (Collector.noteSweep g)) := by
  have shape : HeapShape setup (Collector.noteSweep g) :=
    marking.shape.congr rfl rfl (fun _ _ => rfl) List.filter_sublist rfl
  have own := shape.spaced.recycleBlocks
  have swept := recycleBlocks_spec (Collector.noteSweep g) shape.spaced.heap.mapped
  have marked : ∀ b ∈ g.global.blocks, ∀ a ∈ (Collector.noteSweep g).history.live,
      Block.from a.object = b → a ∈ g.history.live ∧ Object.isMarked g.memory a.object = true ∧
        (g.block b).isMarked = true := by
    rintro b hb a member rfl
    obtain ⟨old, isMarked⟩ := List.mem_filter.mp member
    obtain ⟨layout, extent, intact, marks⟩ := marking.scanned _ hb
    rw [marking.shape.isMarked_eq hb (intact.payload_within old rfl).1] at isMarked
    obtain ⟨walked, -⟩ := intact.live _ (mem_liveIn.mpr ⟨a, old, rfl, rfl⟩)
    exact ⟨old, isMarked, marks.block _ walked isMarked⟩
  have rest := swept.rest
  generalize GlobalAllocator.recycleBlocks (Collector.noteSweep g) = after at *
  have same : space after.global = space (Collector.noteSweep g).global := by
    rw [rest]
    rfl
  have history : after.history = (Collector.noteSweep g).history := by
    rw [rest]
  have unmarked : ∀ b ∈ g.global.blocks, (g.block b).isMarked = false →
      (after.block b).isFree = true ∧ Viewed after b (Block.start b) (Block.stop b) null := by
    intro b hb unmarkedB
    have freed := swept.freed b hb unmarkedB
    refine ⟨freed.isFree, .fresh (shape.bounds.aligned hb) freed.lineHeaders fun a member here => ?_⟩
    rw [history] at member
    rw [(marked b hb a member here).2.2] at unmarkedB
    cases unmarkedB
  have published : ∀ b ∈ g.global.blocks, (g.block b).isMarked = true → ∃ holes,
      Recycled g.memory (g.block b) b holes after.memory (after.block b) ∧ Full after b ∧
        (holes ≠ [] → (after.block b).isRecyclable = true ∧
          ∃ hole, (after.block b).firstFreeLine b = .ok hole ∧ hole ≠ null ∧
            Viewed after b (Block.start b) (Block.start b) hole) := by
    intro b hb markedB
    obtain ⟨holes, recycled⟩ := swept.kept b hb markedB
    refine ⟨holes, recycled, (marking.scanned b hb).swept markedB (fun clear => ?_) recycled
      fun a member here => ?_⟩
    · -- the sweep noted the holes inside objects of all blocks
      rw [history] at clear
      obtain ⟨before, none⟩ := Bool.or_eq_false_iff.mp clear
      exact ⟨before, by simpa using List.any_eq_false.mp none b hb⟩
    · rw [history] at member
      exact ⟨(marked b hb a member here).1, (marked b hb a member here).2.1⟩
  refine ⟨_, _, own, ?_, fun b hb => ?_, fun b member => ?_, fun b member => ?_, fun _ none => none.elim⟩
  · refine shape.congr same (by rw [rest]) (fun b outside => ?_) (by rw [history]) (by rw [rest])
    rw [swept.others b outside]
  · rw [blocks_congr same] at hb
    by_cases isMarked : (g.block b).isMarked = true
    · obtain ⟨-, -, full, -⟩ := published b hb isMarked
      exact full
    · exact (unmarked b hb (by simpa using isMarked)).2.full
  · obtain ⟨hb, isUnmarked⟩ := List.mem_filter.mp member
    rw [Bool.not_eq_true'] at isUnmarked
    exact unmarked b hb isUnmarked
  · obtain ⟨hb, both⟩ := List.mem_filter.mp member
    rw [Bool.and_eq_true, decide_eq_true_iff] at both
    obtain ⟨holes, recycled, -, offers⟩ := published b hb both.1
    exact offers (recycled.hasHole_iff.mp both.2)

end Heap

end ImmixGc.Guarantees
