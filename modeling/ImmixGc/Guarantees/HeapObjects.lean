import ImmixGc.Guarantees.HeapRuns
import ImmixGc.Guarantees.Tracing

/-!
# The objects of a reached heap

In every state of a run without the two flags both heaps have the layout that marking needs:
live objects share no byte, each has its bytes where its header says, and a pointer into the
payload of one finds that object and no other.
-/
namespace ImmixGc.Guarantees
open Source Foundation

/-- A pointer that keeps the object alive. One to the end of the payload does not. -/
def PointsInto (pointer : Nat) (a : Allocation) : Prop :=
  a.object + sizeofObject ≤ pointer ∧ pointer < a.object + a.size

section Objects
variable {setup : Setup} {g : Gc} {layout : Nat → Layout} {extent : Nat → Nat} {chunks : List Nat}

theorem Laid.objectHeap (laid : Laid g layout extent)
    (bounds : HeapBounds setup.smallMap setup.largeMap g.global)
    (large : LargeLive setup.env chunks g) : ObjectHeap g layout extent chunks where
  smallHeap := by
    have start := bounds.smallStart.2.1
    have stop := bounds.smallStop
    have whole := bounds.whole
    simp only [blockSize] at *
    omega
  blocks b member := (laid b member).ok
  tiling := large.ok.heap.tiling
  shape chunk member := by
    have word := large.ok.words chunk member
    have stop : chunkStop g.global.largeChunkList chunk % wordSize = 0 := by
      rcases large.ok.heap.tiling.stop_cases member with ends | next
      · rw [ends]
        exact large.ok.stopWord
      · exact large.ok.words _ next
    refine ⟨word, large.ok.room chunk member, ?_⟩
    simp only [chunkStop, wordSize, chunkHeaderSize] at *
    omega
  addresses := large.ok.heap.stop_lt large.ok.bounds
  spaces := bounds.spaces

theorem Allocated.mem_objects {object : Nat} (allocated : Allocated g layout extent chunks object) :
    object ∈ objects g layout chunks := by
  rcases allocated with ⟨small, -⟩ | large
  · exact List.mem_append_left _ small
  · exact List.mem_append_right _ large

/-- A live object is one of those that marking may mark, with all its bytes. -/
theorem Laid.live (laid : Laid g layout extent) (shape : HeapShape setup g)
    (large : LargeLive setup.env chunks g) {a : Allocation} (member : a ∈ g.history.live) :
    Allocated g layout extent chunks a.object ∧ g.objectSize a.object = a.size := by
  have heap := laid.objectHeap shape.bounds large
  rcases shape.homes a member with home | ⟨inside, -⟩
  · obtain ⟨⟨i, inLine⟩, sized, whole⟩ :=
      (laid _ home).live (a.object, a.size) (mem_liveIn.mpr ⟨a, member, rfl, rfl⟩)
    have small : a.object ∈ smallObjects g layout := heap.mem_smallObjects.mpr ⟨_, home, i, inLine⟩
    exact ⟨Or.inl ⟨small, whole.trans sized.symm⟩, (heap.small_size small).trans sized⟩
  · obtain ⟨chunk, inList, object, allocated, sized⟩ := large.live a member inside
    refine ⟨Or.inr (ObjectHeap.mem_largeObjects.mpr ⟨chunk, inList, allocated, object⟩), ?_⟩
    rw [object, heap.chunk_size inList]
    exact sized

theorem inPayload_iff_pointsInto {a : Allocation} (sized : g.objectSize a.object = a.size)
    {pointer : Nat} : InPayload g a.object pointer ↔ PointsInto pointer a := by
  rw [InPayload, PointsInto, sized]

/-- What a reached state offers to marking. -/
theorem HeapOk.objectHeap (ok : HeapOk setup g) : ∃ layout extent chunks,
    Laid g layout extent ∧ LargeLive setup.env chunks g ∧ ObjectHeap g layout extent chunks := by
  obtain ⟨chunks, large⟩ := ok.large
  obtain ⟨layout, extent, laid⟩ := laid_of_intact fun b member => (ok.small.walkable.full b member).intact
  exact ⟨layout, extent, chunks, laid, large, laid.objectHeap ok.small.shape.bounds large⟩

end Objects

/-- Where an object lies: in the lines of a block, or as the object of an allocated chunk. -/
structure Located (g : Gc) (a : Allocation) : Prop where
  words : a.object % wordSize = 0 ∧ a.size % wordSize = 0
  header : sizeofObject ≤ a.size ∧ g.objectSize a.object = a.size
  place :
    (g.global.inLargeHeap a.object = false ∧ a.size ≤ largeObjectSize ∧
      Block.from a.object ∈ g.global.blocks ∧ Block.start (Block.from a.object) ≤ a.object ∧
      a.object + a.size ≤ Block.stop (Block.from a.object)) ∨
    (InLarge g.global a ∧ ∃ chunk, a.object = chunk + chunkHeaderSize ∧
      (g.global.largeChunkList.chunk chunk).isAllocated = true)

/-- The lookups of `GC_Collector_mark` find the object. -/
def Finds (g : Gc) (pointer : Nat) (a : Allocation) : Prop :=
  (g.global.inSmallHeap pointer = true ∧ ∃ i, Collector.findSmallObject g.memory
    (g.block (Block.from pointer)) (Block.from pointer) pointer = .ok (some (i, a.object))) ∨
  (g.global.inSmallHeap pointer = false ∧ g.global.inLargeHeap pointer = true ∧
    ∀ fuel, g.global.largeChunkList.size < fuel →
      ∃ chunk, a.object = chunk + chunkHeaderSize ∧
        g.global.largeChunkList.find pointer fuel g.global.largeChunkList.first = .ok chunk)

section Reached
variable {setup : Setup} {g : Gc} {a : Allocation}

theorem HeapOk.located (ok : HeapOk setup g) (member : a ∈ g.history.live) : Located g a := by
  obtain ⟨layout, extent, chunks, laid, large, heap⟩ := ok.objectHeap
  obtain ⟨allocated, sized⟩ := laid.live ok.small.shape large member
  rcases allocated with ⟨small, -⟩ | chunk
  · obtain ⟨b, hb, i, inLine⟩ := heap.mem_smallObjects.mp small
    obtain ⟨word, words, enough, most, low, high, -⟩ := heap.place hb inLine
    rw [← heap.small_size small, sized] at words enough most high
    have home : Block.from a.object = b := by
      refine from_eq (heap.blocks b hb).aligned ?_ (by simp only [sizeofObject] at enough; omega)
      simp only [Block.start] at low
      omega
    exact ⟨⟨word, words⟩, ⟨enough, sized⟩, Or.inl ⟨heap.small_not_large small, most,
      home ▸ hb, home ▸ low, home ▸ high⟩⟩
  · obtain ⟨c, inList, isAllocated, object⟩ := ObjectHeap.mem_largeObjects.mp chunk
    obtain ⟨word, enough, words⟩ := heap.shape c inList
    obtain ⟨low, high⟩ := heap.tiling.inside inList
    have inside := heap.chunk_large inList
    rw [object, heap.chunk_size inList] at sized
    rw [sized] at enough words
    rw [chunkStop, sized] at high
    refine ⟨⟨?_, words⟩, ⟨enough, ?_⟩, Or.inr ⟨⟨object ▸ inside, ?_⟩, c, object, isAllocated⟩⟩
    · simp only [wordSize, chunkHeaderSize] at *
      omega
    · rw [object, heap.chunk_size inList]
      exact sized
    · rw [object]
      exact high

theorem HeapOk.finds (ok : HeapOk setup g) (member : a ∈ g.history.live) {pointer : Nat}
    (points : PointsInto pointer a) : Finds g pointer a := by
  obtain ⟨layout, extent, chunks, laid, large, heap⟩ := ok.objectHeap
  obtain ⟨allocated, sized⟩ := laid.live ok.small.shape large member
  have inside := (inPayload_iff_pointsInto sized).mpr points
  have sim := Simulates.start g layout chunks
  rcases heap.located allocated inside with ⟨inSmall, small, whole, payload⟩ |
      ⟨notSmall, inLarge, c, inList, -, object, contains⟩
  · exact Or.inl ⟨inSmall, sim.found_small heap small whole payload⟩
  · refine Or.inr ⟨notSmall, inLarge, fun fuel enough => ⟨c, object, ?_⟩⟩
    rw [heap.tiling.size] at enough
    exact heap.find_eq inList contains enough

end Reached

section Runs
variable {env : Env} {smallMap largeMap memoryLimit freeSpaceDivisor initialSize self : Nat}
  {memory : Memory} {contents : LocalAllocator} {start g : Gc}

end Runs
end ImmixGc.Guarantees
