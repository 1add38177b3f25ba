import ImmixGc.Foundation.Worklist
import ImmixGc.Guarantees.BlockSearch
import ImmixGc.Guarantees.ChunkTiling
import Mathlib.Data.List.Perm.Subperm

/-!
# Marking finds everything that is reachable

`GC_Collector_mark` is the marker of `Foundation.Worklist` over the objects of both heaps: its
nodes are `Object` headers, its words are addresses, and the mark bytes are the marked set. A
lookup that finds the object whose payload a word points into makes it complete.
-/
namespace ImmixGc.Guarantees
open Source Foundation

/-- A heap whose lookups find its objects. Line walks may also visit objects that died: their
`extent` is what later objects left of them. -/
structure ObjectHeap (g : Gc) (layout : Nat → Layout) (extent : Nat → Nat) (chunks : List Nat) :
    Prop where
  smallHeap : g.global.smallHeapStart % blockSize = 0 ∧ g.global.smallHeapStop % blockSize = 0
  blocks : ∀ b ∈ g.global.blocks, BlockOk g.memory (g.block b).lineHeaders b (layout b) [] extent
  tiling : Tiling g.global.largeChunkList g.global.largeHeapStart g.global.largeHeapStop chunks
  shape : ∀ chunk ∈ chunks, chunk % wordSize = 0 ∧
    sizeofObject ≤ (g.global.largeChunkList.chunk chunk).object.size ∧
    (g.global.largeChunkList.chunk chunk).object.size % wordSize = 0
  addresses : g.global.largeHeapStop < sizeModulus
  spaces : g.global.smallHeapStop ≤ g.global.largeHeapStart ∨
    g.global.largeHeapStop ≤ g.global.smallHeapStart

/-- The objects that line walks visit. -/
def smallObjects (g : Gc) (layout : Nat → Layout) : List Nat :=
  g.global.blocks.flatMap fun b => (List.range lineCount).flatMap (layout b).objects

/-- The `Object` headers of the allocated chunks. -/
def largeObjects (g : Gc) (chunks : List Nat) : List Nat :=
  (chunks.filter fun c => (g.global.largeChunkList.chunk c).isAllocated).map (· + chunkHeaderSize)

/-- An object that has all its bytes. -/
def Allocated (g : Gc) (layout : Nat → Layout) (extent : Nat → Nat) (chunks : List Nat)
    (object : Nat) : Prop :=
  (object ∈ smallObjects g layout ∧ extent object = Object.size g.memory object) ∨
    object ∈ largeObjects g chunks

def InPayload (g : Gc) (object pointer : Nat) : Prop :=
  object + sizeofObject ≤ pointer ∧ pointer < object + g.objectSize object

/-- The addresses that `while (sp < bottom)` reads. -/
def regionWords (region : Region) : List Nat :=
  (List.range ((region.2 - region.1 + (wordSize - 1)) / wordSize)).map
    fun i => region.1 + i * wordSize

/-- What `Collector_scanObject` pushes. -/
def payload (g : Gc) (object : Nat) : Region :=
  (Object.mutatorAddress object, object + g.objectSize object)

/-- A word at an address reaches the object whose payload it points into. -/
def wordGraph (g : Gc) (layout : Nat → Layout) (extent : Nat → Nat) (chunks : List Nat) :
    WordGraph Nat Region Nat where
  words := regionWords
  reaches address object := Allocated g layout extent chunks object ∧
    InPayload g object (g.memory.load address)
  region object := if g.objectAtomic object = 0 then some (payload g object) else none

/-- All mark bits are clear, as unmarking leaves them. -/
structure MarksClear (g : Gc) (layout : Nat → Layout) (chunks : List Nat) : Prop where
  small : ∀ o ∈ smallObjects g layout, Object.marked g.memory o = 0
  large : ∀ c ∈ chunks, (g.global.largeChunkList.chunk c).isMarked = false

namespace ObjectHeap
variable {g : Gc} {layout : Nat → Layout} {extent : Nat → Nat} {chunks : List Nat}

theorem mem_smallObjects (heap : ObjectHeap g layout extent chunks) {o : Nat} :
    o ∈ smallObjects g layout ↔ ∃ b ∈ g.global.blocks, ∃ i, o ∈ (layout b).objects i := by
  simp only [smallObjects, List.mem_flatMap, List.mem_range]
  refine exists_congr fun b => and_congr_right fun hb => exists_congr fun i => ?_
  exact ⟨And.right, fun member => ⟨((heap.blocks b hb).contains_of_mem member).1, member⟩⟩

/-- Where the objects of a block lie. -/
theorem place (heap : ObjectHeap g layout extent chunks) {b i o : Nat} (hb : b ∈ g.global.blocks)
    (member : o ∈ (layout b).objects i) :
    o % wordSize = 0 ∧ Object.size g.memory o % wordSize = 0 ∧
      sizeofObject ≤ Object.size g.memory o ∧ Object.size g.memory o ≤ largeObjectSize ∧
      Block.start b ≤ o ∧ o + Object.size g.memory o ≤ Block.stop b ∧
      g.global.smallHeapStart ≤ b ∧ Block.stop b ≤ g.global.smallHeapStop := by
  have ok := heap.blocks b hb
  obtain ⟨aligned, enough, small, words, stop⟩ := ok.shape o ⟨i, member⟩
  obtain ⟨j, rfl, bound⟩ := mem_blocks.mp hb
  obtain ⟨first, last⟩ := heap.smallHeap
  refine ⟨aligned, words, enough, small, ok.start_le ⟨i, member⟩, stop, by omega, ?_⟩
  simp only [Block.stop, blockSize] at *
  omega

/-- A small object is not in the large heap. -/
theorem small_not_large (heap : ObjectHeap g layout extent chunks) {o : Nat}
    (member : o ∈ smallObjects g layout) : g.global.inLargeHeap o = false := by
  obtain ⟨b, hb, i, inLine⟩ := heap.mem_smallObjects.mp member
  obtain ⟨-, -, enough, -, low, high, start, stop⟩ := heap.place hb inLine
  have spaces := heap.spaces
  simp only [GlobalAllocator.inLargeHeap, Bool.and_eq_false_iff, decide_eq_false_iff_not]
  simp only [sizeofObject, Block.start] at *
  omega

theorem small_size (heap : ObjectHeap g layout extent chunks) {o : Nat}
    (member : o ∈ smallObjects g layout) : g.objectSize o = Object.size g.memory o := by
  rw [Gc.objectSize, heap.small_not_large member]
  rfl

theorem chunk_large (heap : ObjectHeap g layout extent chunks) {c : Nat} (member : c ∈ chunks) :
    g.global.inLargeHeap (c + chunkHeaderSize) = true := by
  obtain ⟨low, high⟩ := heap.tiling.inside member
  have shape := (heap.shape c member).2.1
  rw [GlobalAllocator.inLargeHeap, Bool.and_eq_true, decide_eq_true_iff, decide_eq_true_iff]
  simp only [chunkStop, sizeofObject, chunkHeaderSize] at *
  omega

theorem chunk_size (heap : ObjectHeap g layout extent chunks) {c : Nat} (member : c ∈ chunks) :
    g.objectSize (c + chunkHeaderSize) = (g.global.largeChunkList.chunk c).object.size := by
  rw [Gc.objectSize, heap.chunk_large member, if_pos rfl, Nat.add_sub_cancel]

theorem mem_largeObjects {o : Nat} : o ∈ largeObjects g chunks ↔
    ∃ c ∈ chunks, (g.global.largeChunkList.chunk c).isAllocated = true ∧ o = c + chunkHeaderSize := by
  simp only [largeObjects, List.mem_map, List.mem_filter]
  constructor
  · rintro ⟨c, ⟨member, allocated⟩, rfl⟩
    exact ⟨c, member, allocated, rfl⟩
  · rintro ⟨c, member, allocated, rfl⟩
    exact ⟨c, ⟨member, allocated⟩, rfl⟩

/-- Objects and their sizes are words, so the low bits of a pointer do not matter. -/
theorem inPayload_congr (heap : ObjectHeap g layout extent chunks) {o p q : Nat}
    (allocated : Allocated g layout extent chunks o) (same : p / 8 = q / 8) :
    InPayload g o p ↔ InPayload g o q := by
  have words : o % wordSize = 0 ∧ g.objectSize o % wordSize = 0 := by
    rcases allocated with ⟨small, -⟩ | large
    · obtain ⟨b, hb, i, inLine⟩ := heap.mem_smallObjects.mp small
      rw [heap.small_size small]
      exact ⟨(heap.place hb inLine).1, (heap.place hb inLine).2.1⟩
    · obtain ⟨c, member, -, rfl⟩ := mem_largeObjects.mp large
      obtain ⟨aligned, -, sized⟩ := heap.shape c member
      rw [heap.chunk_size member]
      refine ⟨?_, sized⟩
      simp only [wordSize, chunkHeaderSize] at *
      omega
  simp only [InPayload, wordSize, sizeofObject] at *
  omega

/-- The mark word of a small object is read by no line walk. -/
theorem ne_markWord (heap : ObjectHeap g layout extent chunks) {b o : Nat}
    (hb : b ∈ g.global.blocks) (member : o ∈ smallObjects g layout) :
    (∀ x, (layout b).Walked x → x ≠ o + 8) ∧
    ∀ i < lineCount, ((g.block b).lineHeaders i).containsObject = true →
      (layout b).finish i < Block.line b i + lineSize → (layout b).finish i ≠ o + 8 := by
  obtain ⟨b', hb', i, inLine⟩ := heap.mem_smallObjects.mp member
  by_cases same : b' = b
  · subst same
    exact (heap.blocks b' hb).ne_markWord ⟨i, inLine⟩
  · obtain ⟨-, -, enough, -, low, high, -⟩ := heap.place hb' inLine
    have ok := heap.blocks b hb
    have apart : Block.stop b ≤ b' ∨ Block.stop b' ≤ b := by
      have aligned := ok.aligned
      have aligned' := (heap.blocks b' hb').aligned
      simp only [Block.stop, blockSize] at *
      omega
    have other : ∀ x, Block.start b ≤ x → x < Block.stop b → x ≠ o + 8 := by
      intro x above below
      simp only [Block.start, Block.stop, sizeofObject] at *
      omega
    constructor
    · rintro x ⟨j, walked⟩
      obtain ⟨-, -, enough', -, low', high', -⟩ := heap.place hb walked
      refine other x low' ?_
      simp only [sizeofObject] at enough'
      omega
    · intro j bound contains short
      obtain ⟨walk, -⟩ := ok.walk j bound contains
      have first := (Links.within (ok.grows j) walk.path).1
      refine other _ ?_ ?_
      · simp only [Block.line] at first
        omega
      · simp only [Block.line, Block.start, Block.stop, lineSize, lineCount, blockSize] at *
        omega

/-- No payload has a mark word in it. -/
theorem payload_ne_markWord (heap : ObjectHeap g layout extent chunks) {o a x : Nat}
    (allocated : Allocated g layout extent chunks o) (inside : InPayload g o a)
    (member : x ∈ smallObjects g layout) : a ≠ x + 8 := by
  rintro rfl
  obtain ⟨b, hb, i, inLine⟩ := heap.mem_smallObjects.mp member
  obtain ⟨-, -, enough, -, low, high, first, last⟩ := heap.place hb inLine
  rcases allocated with ⟨small, whole⟩ | large
  · rw [InPayload, heap.small_size small] at inside
    obtain ⟨b', hb', i', inLine'⟩ := heap.mem_smallObjects.mp small
    obtain ⟨-, -, -, -, low', high', -⟩ := heap.place hb' inLine'
    have same : b' = b := by
      have aligned := (heap.blocks b hb).aligned
      have aligned' := (heap.blocks b' hb').aligned
      simp only [Block.start, Block.stop, blockSize, sizeofObject] at *
      omega
    subst same
    have ok := heap.blocks b' hb
    have different : o ≠ x := by
      rintro rfl
      simp only [sizeofObject] at inside
      omega
    have apart := ok.apart o x ⟨i', inLine'⟩ ⟨i, inLine⟩ different
    have header := (ok.extents x ⟨i, inLine⟩).1
    simp only [sizeofObject] at *
    omega
  · obtain ⟨c, inList, -, rfl⟩ := mem_largeObjects.mp large
    obtain ⟨above, below⟩ := heap.tiling.inside inList
    rw [InPayload, heap.chunk_size inList] at inside
    have spaces := heap.spaces
    simp only [chunkStop, chunkHeaderSize, sizeofObject, Block.start] at *
    omega

/-- A pointer into an object lies in the heap of the object. -/
theorem located (heap : ObjectHeap g layout extent chunks) {o pointer : Nat}
    (allocated : Allocated g layout extent chunks o) (inside : InPayload g o pointer) :
    (g.global.inSmallHeap pointer = true ∧ o ∈ smallObjects g layout ∧
      extent o = Object.size g.memory o ∧ InPayload g o pointer) ∨
    (g.global.inSmallHeap pointer = false ∧ g.global.inLargeHeap pointer = true ∧
      ∃ c ∈ chunks, (g.global.largeChunkList.chunk c).isAllocated = true ∧
        o = c + chunkHeaderSize ∧ (g.global.largeChunkList.chunk c).contains c pointer = true) := by
  have spaces := heap.spaces
  rcases allocated with ⟨small, whole⟩ | large
  · refine Or.inl ⟨?_, small, whole, inside⟩
    obtain ⟨b, hb, i, inLine⟩ := heap.mem_smallObjects.mp small
    obtain ⟨-, -, -, -, low, high, first, last⟩ := heap.place hb inLine
    rw [InPayload, heap.small_size small] at inside
    rw [GlobalAllocator.inSmallHeap, Bool.and_eq_true, decide_eq_true_iff, decide_eq_true_iff]
    simp only [Block.start] at low
    omega
  · obtain ⟨c, member, isAllocated, rfl⟩ := ObjectHeap.mem_largeObjects.mp large
    obtain ⟨low, high⟩ := heap.tiling.inside member
    rw [InPayload, heap.chunk_size member] at inside
    have addresses := heap.addresses
    have contains : (g.global.largeChunkList.chunk c).contains c pointer = true := by
      rw [chunkStop] at high
      rw [Chunk.contains, Bool.and_eq_true, decide_eq_true_iff, decide_eq_true_iff,
        sizeAdd_eq (a := c) (by omega), sizeAdd_eq (by omega)]
      simp only [Chunk.mutatorAddress, chunkHeaderSize, sizeofChunk, sizeofObject] at *
      omega
    refine Or.inr ⟨?_, ?_, c, member, isAllocated, rfl, contains⟩
    · rw [GlobalAllocator.inSmallHeap, Bool.and_eq_false_iff, decide_eq_false_iff_not,
        decide_eq_false_iff_not]
      simp only [chunkStop, chunkHeaderSize, sizeofObject] at *
      omega
    · rw [GlobalAllocator.inLargeHeap, Bool.and_eq_true, decide_eq_true_iff, decide_eq_true_iff]
      simp only [chunkStop, chunkHeaderSize, sizeofObject] at *
      omega

/-- Two chunks do not contain one pointer. -/
theorem chunk_unique (heap : ObjectHeap g layout extent chunks) {c d pointer : Nat}
    (hc : c ∈ chunks) (hd : d ∈ chunks)
    (inC : (g.global.largeChunkList.chunk c).contains c pointer = true)
    (inD : (g.global.largeChunkList.chunk d).contains d pointer = true) : d = c := by
  by_contra different
  have apart := heap.tiling.apart hd hc different
  have stopC := (heap.tiling.inside hc).2
  have stopD := (heap.tiling.inside hd).2
  have addresses := heap.addresses
  rw [chunkStop] at stopC stopD
  rw [Chunk.contains, Bool.and_eq_true, decide_eq_true_iff, decide_eq_true_iff,
    sizeAdd_eq (a := d) (by omega), sizeAdd_eq (by omega)] at inD
  rw [Chunk.contains, Bool.and_eq_true, decide_eq_true_iff, decide_eq_true_iff,
    sizeAdd_eq (a := c) (by omega), sizeAdd_eq (by omega)] at inC
  simp only [chunkStop, Chunk.mutatorAddress, chunkHeaderSize, sizeofChunk] at *
  omega

end ObjectHeap

/-! ## The lookup of a chunk -/

/-- `ChunkList_find` returns a chunk that contains the pointer, or `NULL` when there is none. -/
theorem find_spec {list : ChunkList} {pointer : Nat} (chunks : List Nat) (fuel chunk : Nat)
    (linked : Links (fun c => (list.chunk c).next) chunk chunks null) (away : null ∉ chunks)
    (enough : chunks.length < fuel) :
    (list.find pointer fuel chunk = .ok null ∧
      ∀ c ∈ chunks, (list.chunk c).contains c pointer = false) ∨
    ∃ c ∈ chunks, (list.chunk c).contains c pointer = true ∧
      list.find pointer fuel chunk = .ok c := by
  induction chunks generalizing fuel chunk with
  | nil =>
    obtain ⟨fuel, rfl⟩ := Nat.exists_eq_add_of_lt enough
    rw [ChunkList.find, if_pos (Links.nil_iff.mp linked)]
    exact Or.inl ⟨rfl, fun c member => by cases member⟩
  | cons c rest ih =>
    obtain ⟨fuel, rfl⟩ : ∃ n, fuel = n + 1 := ⟨fuel - 1, by omega⟩
    obtain ⟨rfl, next⟩ := linked
    have some : chunk ≠ null := fun none => away (none ▸ List.mem_cons_self)
    rw [ChunkList.find, if_neg some]
    by_cases hit : (list.chunk chunk).contains chunk pointer = true
    · rw [if_pos hit]
      exact Or.inr ⟨chunk, List.mem_cons_self, hit, rfl⟩
    · rw [if_neg hit]
      rcases ih fuel _ next (fun member => away (List.mem_cons_of_mem _ member))
          (by simp only [List.length_cons] at enough; omega) with ⟨none, others⟩ | ⟨c, member, found⟩
      · refine Or.inl ⟨none, fun x member => ?_⟩
        rcases List.mem_cons.mp member with rfl | later
        · exact Bool.eq_false_iff.mpr hit
        · exact others x later
      · exact Or.inr ⟨c, List.mem_cons_of_mem _ member, found⟩

/-- The lookup finds the chunk that contains the pointer. -/
theorem ObjectHeap.find_eq {g : Gc} {layout : Nat → Layout} {extent : Nat → Nat} {chunks : List Nat}
    (heap : ObjectHeap g layout extent chunks) {c pointer fuel : Nat} (member : c ∈ chunks)
    (inside : (g.global.largeChunkList.chunk c).contains c pointer = true)
    (enough : chunks.length < fuel) :
    g.global.largeChunkList.find pointer fuel g.global.largeChunkList.first = .ok c := by
  rcases find_spec chunks fuel _ heap.tiling.linked heap.tiling.null_not_mem enough with
    ⟨-, others⟩ | ⟨d, inList, hit, found⟩
  · rw [others c member] at inside
    cases inside
  · rw [found, heap.chunk_unique member inList inside hit]

/-! ## The simulation -/

/-- The objects a marker may mark. -/
def objects (g : Gc) (layout : Nat → Layout) (chunks : List Nat) : List Nat :=
  smallObjects g layout ++ largeObjects g chunks

/-- The heap `g` after the nodes `s.marked` were marked in the heap `g₀`. -/
structure Simulates (g₀ : Gc) (layout : Nat → Layout) (chunks : List Nat) (g : Gc)
    (s : Marker Nat Region Nat) : Prop where
  other : ∀ a, (∀ o ∈ smallObjects g₀ layout, a ≠ o + 8) → g.memory.load a = g₀.memory.load a
  marks : ∀ o ∈ smallObjects g₀ layout,
    g.memory.load (o + 8) = g₀.memory.load (o + 8) + if o ∈ s.marked then 1 else 0
  headers : ∀ b i, ((g.block b).lineHeaders i).containsObject =
      ((g₀.block b).lineHeaders i).containsObject ∧
    ((g.block b).lineHeaders i).getOffset = ((g₀.block b).lineHeaders i).getOffset
  global : g.global = { g₀.global with
    largeChunkList := { g₀.global.largeChunkList with
      chunk := fun c => if c ∈ chunks ∧ c + chunkHeaderSize ∈ s.marked
        then (g₀.global.largeChunkList.chunk c).mark else g₀.global.largeChunkList.chunk c } }
  roots : g.collector.roots = s.work
  known : ∀ o ∈ s.marked, o ∈ objects g₀ layout chunks

namespace Simulates
variable {g₀ g g' : Gc} {layout : Nat → Layout} {extent : Nat → Nat} {chunks : List Nat}
  {s : Marker Nat Region Nat}

theorem start (g : Gc) (layout : Nat → Layout) (chunks : List Nat) :
    Simulates g layout chunks g ⟨[], [], g.collector.roots⟩ where
  other _ _ := rfl
  marks o _ := by simp
  headers _ _ := ⟨rfl, rfl⟩
  global := by simp only [List.not_mem_nil, and_false, if_false]
  roots := rfl
  known o member := by cases member

/-- A mark only changes the low bit of a word. -/
theorem load_div (sim : Simulates g₀ layout chunks g s) (clear : MarksClear g₀ layout chunks)
    (a : Nat) : g.memory.load a / 8 = g₀.memory.load a / 8 := by
  by_cases mark : ∀ o ∈ smallObjects g₀ layout, a ≠ o + 8
  · rw [sim.other a mark]
  · obtain ⟨o, member, rfl⟩ : ∃ o ∈ smallObjects g₀ layout, a = o + 8 := by
      by_contra none
      exact mark fun o member same => none ⟨o, member, same⟩
    have low := clear.small o member
    rw [Object.marked] at low
    rw [sim.marks o member]
    split <;> omega

theorem size (sim : Simulates g₀ layout chunks g s) (heap : ObjectHeap g₀ layout extent chunks)
    {b x : Nat} (hb : b ∈ g₀.global.blocks) (walked : (layout b).Walked x) :
    Object.size g.memory x = Object.size g₀.memory x :=
  sim.other x fun _ member => (heap.ne_markWord hb member).1 x walked

/-- The line walks of the heap stay what they were. -/
theorem blockOk (sim : Simulates g₀ layout chunks g s) (heap : ObjectHeap g₀ layout extent chunks)
    {b : Nat} (hb : b ∈ g₀.global.blocks) :
    BlockOk g.memory (g.block b).lineHeaders b (layout b) [] extent := by
  refine (heap.blocks b hb).congr (fun x walked => sim.size heap hb walked) ?_
    (fun i => (sim.headers b i).1) fun i _ _ => (sim.headers b i).2
  intro i bound contains short
  exact sim.other _ fun _ member => (heap.ne_markWord hb member).2 i bound contains short

theorem isMarked_small (sim : Simulates g₀ layout chunks g s)
    (clear : MarksClear g₀ layout chunks) {o : Nat} (member : o ∈ smallObjects g₀ layout) :
    Object.isMarked g.memory o = decide (o ∈ s.marked) := by
  have low := clear.small o member
  rw [Object.marked] at low
  rw [Object.isMarked, Object.marked, sim.marks o member]
  by_cases marked : o ∈ s.marked
  · rw [if_pos marked, decide_eq_true marked, beq_iff_eq]
    omega
  · rw [if_neg marked, decide_eq_false marked, beq_eq_false_iff_ne]
    omega

theorem chunk (sim : Simulates g₀ layout chunks g s) {c : Nat} (member : c ∈ chunks) :
    g.global.largeChunkList.chunk c = if c + chunkHeaderSize ∈ s.marked
      then (g₀.global.largeChunkList.chunk c).mark else g₀.global.largeChunkList.chunk c := by
  rw [sim.global]
  simp only [member, true_and]

theorem isMarked_chunk (sim : Simulates g₀ layout chunks g s)
    (clear : MarksClear g₀ layout chunks) {c : Nat} (member : c ∈ chunks) :
    (g.global.largeChunkList.chunk c).isMarked = decide (c + chunkHeaderSize ∈ s.marked) := by
  rw [sim.chunk member]
  by_cases marked : c + chunkHeaderSize ∈ s.marked
  · rw [if_pos marked, decide_eq_true marked]
    rfl
  · rw [if_neg marked, decide_eq_false marked]
    exact clear.large c member

theorem isMarked (sim : Simulates g₀ layout chunks g s) (clear : MarksClear g₀ layout chunks)
    (heap : ObjectHeap g₀ layout extent chunks) {o : Nat} (member : o ∈ objects g₀ layout chunks) :
    g.isMarked o = decide (o ∈ s.marked) := by
  have large : g.global.inLargeHeap = g₀.global.inLargeHeap := by
    rw [sim.global]
    rfl
  rw [Gc.isMarked, large]
  rcases List.mem_append.mp member with small | chunk
  · rw [heap.small_not_large small]
    exact sim.isMarked_small clear small
  · obtain ⟨c, inList, -, rfl⟩ := ObjectHeap.mem_largeObjects.mp chunk
    rw [heap.chunk_large inList, if_pos rfl, Nat.add_sub_cancel]
    exact sim.isMarked_chunk clear inList

/-- Marks do not change where chunks lie. -/
theorem chunk_same (sim : Simulates g₀ layout chunks g s) (c : Nat) :
    (g.global.largeChunkList.chunk c).next = (g₀.global.largeChunkList.chunk c).next ∧
    (g.global.largeChunkList.chunk c).allocated = (g₀.global.largeChunkList.chunk c).allocated ∧
    (g.global.largeChunkList.chunk c).object.size = (g₀.global.largeChunkList.chunk c).object.size ∧
    (g.global.largeChunkList.chunk c).object.atomic =
      (g₀.global.largeChunkList.chunk c).object.atomic := by
  rw [sim.global]
  dsimp only
  split
  · exact ⟨rfl, rfl, rfl, rfl⟩
  · exact ⟨rfl, rfl, rfl, rfl⟩

/-- The lookup in a block finds the object that a pointer points into. -/
theorem found_small (sim : Simulates g₀ layout chunks g s)
    (heap : ObjectHeap g₀ layout extent chunks) {pointer o : Nat}
    (member : o ∈ smallObjects g₀ layout) (whole : extent o = Object.size g₀.memory o)
    (inside : InPayload g₀ o pointer) :
    ∃ i, Collector.findSmallObject g.memory (g.block (Block.from pointer)) (Block.from pointer)
      pointer = .ok (some (i, o)) := by
  obtain ⟨b, hb, i, inLine⟩ := heap.mem_smallObjects.mp member
  obtain ⟨-, -, enough, -, low, high, -⟩ := heap.place hb inLine
  rw [InPayload, heap.small_size member] at inside
  have home : Block.from pointer = b := by
    refine from_eq (heap.blocks b hb).aligned ?_ (by omega)
    simp only [Block.start, sizeofObject] at *
    omega
  have sized := sim.size heap hb ⟨i, inLine⟩
  rw [home]
  refine ⟨i, (sim.blockOk heap hb).findSmallObject_eq pointer inLine (whole.trans sized.symm) ?_⟩
  rw [Object.contains_iff, sized]
  exact inside

/-- An object that a word reaches lies in the heap that the word points into. -/
theorem reached (sim : Simulates g₀ layout chunks g s) (clear : MarksClear g₀ layout chunks)
    (heap : ObjectHeap g₀ layout extent chunks) {a o : Nat}
    (reaches : (wordGraph g₀ layout extent chunks).reaches a o) :
    (g₀.global.inSmallHeap (g.memory.load a) = true ∧ o ∈ smallObjects g₀ layout ∧
      extent o = Object.size g₀.memory o ∧ InPayload g₀ o (g.memory.load a)) ∨
    (g₀.global.inSmallHeap (g.memory.load a) = false ∧
      g₀.global.inLargeHeap (g.memory.load a) = true ∧
      ∃ c ∈ chunks, (g₀.global.largeChunkList.chunk c).isAllocated = true ∧
        o = c + chunkHeaderSize ∧
        (g₀.global.largeChunkList.chunk c).contains c (g.memory.load a) = true) :=
  heap.located reaches.1 ((heap.inPayload_congr reaches.1 (sim.load_div clear a)).mpr reaches.2)

/-- What `Collector_scanObject` does to the stack. -/
theorem scanObject_roots (g : Gc) (object size atomic : Nat) :
    (Collector.scanObject g object size atomic).collector.roots =
      (if atomic = 0 then [(Object.mutatorAddress object, object + size)] else []) ++
        g.collector.roots := by
  rw [Collector.scanObject]
  split <;> rfl

/-- Marking a small object. -/
theorem markSmall {marked todo : List Nat} {work : List Region}
    (sim : Simulates g₀ layout chunks g ⟨marked, todo, work⟩)
    (clear : MarksClear g₀ layout chunks) (heap : ObjectHeap g₀ layout extent chunks)
    {b i object : Nat} (hb : b ∈ g₀.global.blocks)
    (member : object ∈ (layout b).objects i) (new : object ∉ marked) (todo' : List Nat) :
    Simulates g₀ layout chunks (Collector.scanObject { g with
        memory := (Collector.markSmallObject g.memory (g.block b) b i object).1
        block := store g.block b (Collector.markSmallObject g.memory (g.block b) b i object).2 }
        object (Object.size g.memory object) (Object.atomic g.memory object))
      ⟨object :: marked, todo',
        ((wordGraph g₀ layout extent chunks).region object).toList ++ work⟩ := by
  have small : object ∈ smallObjects g₀ layout := heap.mem_smallObjects.mpr ⟨b, hb, i, member⟩
  have ok := sim.blockOk heap hb
  have place := ok.in_line member
  rw [markSmallObject_eq _ ⟨by omega, place.2⟩ (ok.shape object ⟨i, member⟩).2.2.1]
  have old : g.memory.load (object + 8) = g₀.memory.load (object + 8) := by
    rw [sim.marks object small, if_neg new]
    rfl
  have load : ∀ a, (Object.mark g.memory object).load a =
      if a = object + 8 then g.memory.load (object + 8) / 256 * 256 + 1 else g.memory.load a :=
    Object.load_setMarked g.memory object 1
  refine ⟨fun a away => ?_, fun o ho => ?_, fun b' j => ?_, ?_, ?_, fun o ho => ?_⟩
  · rw [scanObject_memory]
    dsimp only
    rw [load, if_neg (away object small)]
    exact sim.other a away
  · rw [scanObject_memory]
    dsimp only
    rw [load]
    by_cases same : o = object
    · subst same
      have low := clear.small o small
      rw [Object.marked] at low
      rw [if_pos rfl, if_pos List.mem_cons_self]
      omega
    · rw [if_neg (by omega), sim.marks o ho]
      simp only [List.mem_cons, same, false_or]
  · rw [scanObject_block]
    dsimp only
    rw [store_apply]
    split
    · next same =>
      subst same
      have before := sim.headers b' j
      dsimp only
      split
      · rw [LineHeader.containsObject_mark, LineHeader.getOffset_mark]
        exact before
      · exact before
    · exact sim.headers b' j
  · -- the new node is no chunk
    have chunks_same : ∀ c, (c ∈ chunks ∧ c + chunkHeaderSize ∈ object :: marked) ↔
        c ∈ chunks ∧ c + chunkHeaderSize ∈ marked := by
      refine fun c => and_congr_right fun inList => ⟨fun either => ?_, List.mem_cons_of_mem _⟩
      rcases List.mem_cons.mp either with same | before
      · have large := heap.chunk_large inList
        rw [same, heap.small_not_large small] at large
        cases large
      · exact before
    rw [scanObject_global]
    simp only [chunks_same]
    exact sim.global
  · rw [scanObject_roots]
    have atomic : Object.atomic g.memory object = g₀.objectAtomic object := by
      rw [Gc.objectAtomic, heap.small_not_large small, if_neg Bool.false_ne_true, Object.atomic,
        Object.atomic, old]
    dsimp only
    rw [atomic, sim.size heap hb ⟨i, member⟩, sim.roots, wordGraph]
    dsimp only
    rw [payload, heap.small_size small]
    split <;> rfl
  · rcases List.mem_cons.mp ho with rfl | before
    · exact List.mem_append_left _ small
    · exact sim.known o before

/-- A word that points into the small heap. -/
theorem pointSmall (sim : Simulates g₀ layout chunks g s) (clear : MarksClear g₀ layout chunks)
    (heap : ObjectHeap g₀ layout extent chunks) {marked : List Nat} {a : Nat} {todo : List Nat}
    {work : List Region} (reading : s = ⟨marked, a :: todo, work⟩)
    (inside : g₀.global.inSmallHeap (g.memory.load a) = true) :
    ∃ g' s', Collector.findAndMarkSmallObject (g.memory.load a) g = .ok g' ∧
      (wordGraph g₀ layout extent chunks).Step s s' ∧ Simulates g₀ layout chunks g' s' := by
  subst reading
  -- what the word reaches is what the lookup finds
  have lookup : ∀ o, (wordGraph g₀ layout extent chunks).reaches a o →
      ∃ i, Collector.findSmallObject g.memory (g.block (Block.from (g.memory.load a)))
        (Block.from (g.memory.load a)) (g.memory.load a) = .ok (some (i, o)) := by
    intro o reaches
    rcases sim.reached clear heap reaches with ⟨-, small, whole, payload⟩ | ⟨outside, -⟩
    · exact sim.found_small heap small whole payload
    · rw [inside] at outside
      cases outside
  generalize g.memory.load a = pointer at *
  have hb : Block.from pointer ∈ g₀.global.blocks := by
    rw [GlobalAllocator.inSmallHeap, Bool.and_eq_true, decide_eq_true_iff, decide_eq_true_iff]
      at inside
    obtain ⟨first, last⟩ := heap.smallHeap
    refine mem_blocks.mpr ⟨(Block.from pointer - g₀.global.smallHeapStart) / blockSize, ?_, ?_⟩
    · simp only [Block.from, blockSize] at *
      omega
    · simp only [Block.from, blockSize] at *
      omega
  have ok := sim.blockOk heap hb
  have below : pointer < Block.stop (Block.from pointer) := by
    simp only [Block.from, Block.stop, blockSize]
    omega
  rcases ok.findSmallObject_total pointer below with none | ⟨i, object, member, -, found⟩
  · refine ⟨g, _, ?_, .skip fun o reaches => ?_, { sim with }⟩
    · rw [Collector.findAndMarkSmallObject, none, ok_bind]
    · obtain ⟨i, found⟩ := lookup o reaches
      rw [none] at found
      cases found
  · have only : ∀ o, (wordGraph g₀ layout extent chunks).reaches a o → o = object := by
      intro o reaches
      obtain ⟨j, other⟩ := lookup o reaches
      rw [found] at other
      simp only [Except.ok.injEq, Option.some.injEq, Prod.mk.injEq] at other
      exact other.2.symm
    have small : object ∈ smallObjects g₀ layout :=
      heap.mem_smallObjects.mpr ⟨_, hb, i, member⟩
    have isMarked := sim.isMarked_small clear small
    rw [Collector.findAndMarkSmallObject, found, ok_bind]
    dsimp only at isMarked ⊢
    by_cases already : object ∈ marked
    · rw [isMarked, decide_eq_true already, if_pos rfl]
      exact ⟨g, _, rfl, .skip fun o reaches => only o reaches ▸ already, { sim with }⟩
    · rw [isMarked, decide_eq_false already, if_neg Bool.false_ne_true]
      exact ⟨_, _, rfl, .mark already only, sim.markSmall clear heap hb member already todo⟩

/-- Marking a chunk. -/
theorem markLarge {marked todo : List Nat} {work : List Region}
    (sim : Simulates g₀ layout chunks g ⟨marked, todo, work⟩)
    (heap : ObjectHeap g₀ layout extent chunks) {c : Nat} (member : c ∈ chunks)
    (isAllocated : (g₀.global.largeChunkList.chunk c).isAllocated = true)
    (new : c + chunkHeaderSize ∉ marked) (todo' : List Nat) :
    Simulates g₀ layout chunks (Collector.scanObject (Collector.withChunkList g
          { g.global.largeChunkList with
            chunk := store g.global.largeChunkList.chunk c (g.global.largeChunkList.chunk c).mark })
        (c + chunkHeaderSize) (g.global.largeChunkList.chunk c).object.size
        (g.global.largeChunkList.chunk c).object.atomic)
      ⟨(c + chunkHeaderSize) :: marked, todo',
        ((wordGraph g₀ layout extent chunks).region (c + chunkHeaderSize)).toList ++ work⟩ := by
  have notSmall : c + chunkHeaderSize ∉ smallObjects g₀ layout := by
    intro small
    have large := heap.chunk_large member
    rw [heap.small_not_large small] at large
    cases large
  have same := sim.chunk member
  rw [if_neg new] at same
  refine ⟨fun a away => ?_, fun o ho => ?_, fun b j => ?_, ?_, ?_, fun o ho => ?_⟩
  · rw [scanObject_memory]
    exact sim.other a away
  · rw [scanObject_memory]
    refine (sim.marks o ho).trans ?_
    have different : o ≠ c + chunkHeaderSize := fun same => notSmall (same ▸ ho)
    simp only [List.mem_cons, different, false_or]
  · rw [scanObject_block]
    exact sim.headers b j
  · rw [scanObject_global, Collector.withChunkList, sim.global]
    dsimp only
    refine congrArg (fun chunk => { g₀.global with
      largeChunkList := { g₀.global.largeChunkList with chunk := chunk } }) ?_
    funext x
    rw [store_apply]
    by_cases here : x = c
    · subst here
      rw [if_pos rfl, if_neg (fun both => new both.2), if_pos ⟨member, List.mem_cons_self⟩]
    · have other : x + chunkHeaderSize ∈ (c + chunkHeaderSize) :: marked ↔
          x + chunkHeaderSize ∈ marked := by
        rw [List.mem_cons, Nat.add_right_cancel_iff]
        exact or_iff_right here
      rw [if_neg here]
      simp only [other]
  · rw [scanObject_roots, same, wordGraph]
    dsimp only
    have roots : (Collector.withChunkList g { g.global.largeChunkList with
        chunk := store g.global.largeChunkList.chunk c
          (g₀.global.largeChunkList.chunk c).mark }).collector.roots = work := sim.roots
    rw [roots, payload, heap.chunk_size member, Gc.objectAtomic, heap.chunk_large member, if_pos rfl,
      Nat.add_sub_cancel]
    split <;> rfl
  · rcases List.mem_cons.mp ho with rfl | before
    · exact List.mem_append_right _ (ObjectHeap.mem_largeObjects.mpr ⟨c, member, isAllocated, rfl⟩)
    · exact sim.known o before

/-- A word that points into the large heap. -/
theorem pointLarge (sim : Simulates g₀ layout chunks g s) (clear : MarksClear g₀ layout chunks)
    (heap : ObjectHeap g₀ layout extent chunks) {marked : List Nat} {a : Nat} {todo : List Nat}
    {work : List Region} (reading : s = ⟨marked, a :: todo, work⟩)
    (outside : g₀.global.inSmallHeap (g.memory.load a) = false) {fuel : Nat}
    (enough : chunks.length < fuel) :
    ∃ c s', g.global.largeChunkList.find (g.memory.load a) fuel g.global.largeChunkList.first =
        .ok c ∧
      (wordGraph g₀ layout extent chunks).Step s s' ∧
      Simulates g₀ layout chunks (Collector.markChunk g c) s' := by
  subst reading
  have first : g.global.largeChunkList.first = g₀.global.largeChunkList.first := by
    rw [sim.global]
  have contains : ∀ c, (g.global.largeChunkList.chunk c).contains c (g.memory.load a) =
      (g₀.global.largeChunkList.chunk c).contains c (g.memory.load a) := by
    intro c
    rw [Chunk.contains, Chunk.contains, (sim.chunk_same c).2.2.1]
  have linked : Links (fun c => (g.global.largeChunkList.chunk c).next)
      g.global.largeChunkList.first chunks null := by
    rw [first]
    exact heap.tiling.linked.congr fun c _ => (sim.chunk_same c).1
  -- what the word reaches is a chunk that contains the pointer
  have target : ∀ o, (wordGraph g₀ layout extent chunks).reaches a o →
      ∃ c ∈ chunks, (g₀.global.largeChunkList.chunk c).isAllocated = true ∧
        o = c + chunkHeaderSize ∧
        (g₀.global.largeChunkList.chunk c).contains c (g.memory.load a) = true := by
    intro o reaches
    rcases sim.reached clear heap reaches with ⟨inside, -⟩ | ⟨-, -, chunk⟩
    · rw [outside] at inside
      cases inside
    · exact chunk
  rcases find_spec chunks fuel _ linked heap.tiling.null_not_mem enough with
    ⟨none, others⟩ | ⟨c, member, hit, found⟩
  · refine ⟨null, _, none, .skip fun o reaches => ?_, ?_⟩
    · obtain ⟨c, member, -, -, hit⟩ := target o reaches
      rw [← contains, others c member] at hit
      cases hit
    · rw [Collector.markChunk, if_neg (fun all => all.1 rfl)]
      exact { sim with }
  · have some : c ≠ null := fun none => heap.tiling.null_not_mem (none ▸ member)
    have only : ∀ o, (wordGraph g₀ layout extent chunks).reaches a o →
        o = c + chunkHeaderSize ∧ (g₀.global.largeChunkList.chunk c).isAllocated = true := by
      intro o reaches
      obtain ⟨d, inList, isAllocated, rfl, inside⟩ := target o reaches
      rw [contains] at hit
      have same := heap.chunk_unique member inList hit inside
      subst same
      exact ⟨rfl, isAllocated⟩
    have isAllocated : (g.global.largeChunkList.chunk c).isAllocated =
        (g₀.global.largeChunkList.chunk c).isAllocated := by
      rw [Chunk.isAllocated, Chunk.isAllocated, (sim.chunk_same c).2.1]
    have isMarked := sim.isMarked_chunk clear member
    dsimp only at isMarked
    by_cases already : c + chunkHeaderSize ∈ marked
    · refine ⟨c, _, found, .skip fun o reaches => ?_, ?_⟩
      · rw [(only o reaches).1]
        exact already
      · rw [Collector.markChunk, isMarked, decide_eq_true already,
          if_neg (fun all => Bool.noConfusion all.2.2)]
        exact { sim with }
    · by_cases free : (g₀.global.largeChunkList.chunk c).isAllocated = true
      · refine ⟨c, _, found, .mark already fun o reaches => (only o reaches).1, ?_⟩
        rw [Collector.markChunk, isMarked, isAllocated,
          if_pos ⟨some, free, decide_eq_false already⟩]
        exact sim.markLarge heap member free already todo
      · refine ⟨c, _, found, .skip fun o reaches => absurd (only o reaches).2 free, ?_⟩
        rw [Collector.markChunk, isAllocated, if_neg (fun all => free all.2.1)]
        exact { sim with }

/-- One word of a region. -/
theorem markPointer (sim : Simulates g₀ layout chunks g s) (clear : MarksClear g₀ layout chunks)
    (heap : ObjectHeap g₀ layout extent chunks) {a : Nat} {todo : List Nat}
    (reading : s.todo = a :: todo) {env : Env} (enough : chunks.length < env.fuel) :
    ∃ g' s', Collector.markPointer env (g.memory.load a) g = .ok g' ∧
      (wordGraph g₀ layout extent chunks).Step s s' ∧ Simulates g₀ layout chunks g' s' := by
  have reading : s = ⟨s.marked, a :: todo, s.work⟩ := by rw [← reading]
  have small : g.global.inSmallHeap = g₀.global.inSmallHeap := by
    rw [sim.global]
    rfl
  have large : g.global.inLargeHeap = g₀.global.inLargeHeap := by
    rw [sim.global]
    rfl
  rw [Collector.markPointer, small, large]
  by_cases inSmall : g₀.global.inSmallHeap (g.memory.load a) = true
  · rw [if_pos inSmall]
    exact sim.pointSmall clear heap reading inSmall
  · rw [if_neg inSmall]
    by_cases inLarge : g₀.global.inLargeHeap (g.memory.load a) = true
    · obtain ⟨c, s', found, step, sim'⟩ :=
        sim.pointLarge clear heap reading (Bool.eq_false_iff.mpr inSmall) enough
      rw [if_pos inLarge, found, ok_bind]
      exact ⟨_, s', rfl, step, sim'⟩
    · rw [if_neg inLarge, reading]
      refine ⟨g, _, rfl, .skip fun o reaches => ?_, { sim with }⟩
      rcases sim.reached clear heap reaches with ⟨inside, -⟩ | ⟨-, inside, -⟩
      · exact absurd inside inSmall
      · exact absurd inside inLarge

/-- The words of a region, from `sp` on. -/
theorem scanWords {env : Env} (clear : MarksClear g₀ layout chunks)
    (heap : ObjectHeap g₀ layout extent chunks) (enough : chunks.length < env.fuel)
    (count sp : Nat) (sim : Simulates g₀ layout chunks g s)
    (reading : s.todo = (List.range count).map fun i => sp + i * wordSize) :
    ∃ g' s', Collector.scanWords env count sp g = .ok g' ∧
      (wordGraph g₀ layout extent chunks).Steps s s' ∧ Simulates g₀ layout chunks g' s' ∧
      s'.todo = [] ∧
      s'.work.length + s.marked.length ≤ s.work.length + s'.marked.length := by
  induction count generalizing g s sp with
  | zero => exact ⟨g, s, rfl, .refl, sim, reading, Nat.le_refl _⟩
  | succ count ih =>
    rw [List.range_succ_eq_map, List.map_cons, List.map_map, Nat.zero_mul, Nat.add_zero] at reading
    obtain ⟨g₁, s₁, one, step, sim₁⟩ := sim.markPointer clear heap reading enough
    obtain ⟨todo, potential⟩ := step.potential reading
    have rest : s₁.todo = (List.range count).map fun i => sp + wordSize + i * wordSize := by
      rw [todo]
      refine List.map_congr_left fun i _ => ?_
      simp only [Function.comp_apply, wordSize]
      omega
    obtain ⟨g', s', others, steps, sim', done, potential'⟩ := ih (sp + wordSize) sim₁ rest
    rw [Collector.scanWords, one, ok_bind]
    exact ⟨g', s', others, .head step steps, sim', done, by omega⟩

/-- The stack loop: each round pops a region, and a region is pushed for a new mark only. -/
theorem mark {env : Env} (clear : MarksClear g₀ layout chunks)
    (heap : ObjectHeap g₀ layout extent chunks) (enough : chunks.length < env.fuel)
    {roots : List Region} (fuel : Nat) (sim : Simulates g₀ layout chunks g s)
    (inv : (wordGraph g₀ layout extent chunks).Tricolour roots s) (idle : s.todo = [])
    (bound : s.work.length + (objects g₀ layout chunks).length < fuel + s.marked.length) :
    ∃ g' marked, Collector.mark env fuel g = .ok g' ∧
      (wordGraph g₀ layout extent chunks).Steps s ⟨marked, [], []⟩ ∧
      Simulates g₀ layout chunks g' ⟨marked, [], []⟩ := by
  induction fuel generalizing g s with
  | zero =>
    have few : s.marked.length ≤ (objects g₀ layout chunks).length :=
      (List.subperm_of_subset inv.nodup fun o member => sim.known o member).length_le
    omega
  | succ fuel ih =>
    obtain ⟨marked, todo, work⟩ := s
    subst idle
    rw [Collector.mark, sim.roots]
    cases work with
    | nil => exact ⟨g, marked, rfl, .refl, sim⟩
    | cons region rest =>
      have step : (wordGraph g₀ layout extent chunks).Step ⟨marked, [], region :: rest⟩
          ⟨marked, regionWords region, rest⟩ := .pop
      have popped : Simulates g₀ layout chunks
          { g with collector := { g.collector with roots := rest } }
          ⟨marked, regionWords region, rest⟩ := { sim with roots := rfl }
      obtain ⟨g₁, s₁, scanned, steps, sim₁, done, potential⟩ :=
        scanWords clear heap enough _ region.1 popped rfl
      obtain ⟨g', marked', rest', steps', sim'⟩ :=
        ih sim₁ ((inv.step step).steps steps) done (by
          simp only [List.length_cons] at bound potential
          omega)
      dsimp only
      rw [Collector.scanRegion, scanned, ok_bind]
      exact ⟨g', marked', rest', (Relation.ReflTransGen.single step).trans (steps.trans steps'), sim'⟩

/-- A stack loop that returned. -/
theorem mark_ok {env : Env} (clear : MarksClear g₀ layout chunks)
    (heap : ObjectHeap g₀ layout extent chunks) (enough : chunks.length < env.fuel) (fuel : Nat)
    (sim : Simulates g₀ layout chunks g s) (idle : s.todo = [])
    (success : Collector.mark env fuel g = .ok g') :
    ∃ marked, (wordGraph g₀ layout extent chunks).Steps s ⟨marked, [], []⟩ ∧
      Simulates g₀ layout chunks g' ⟨marked, [], []⟩ := by
  induction fuel generalizing g s with
  | zero => cases success
  | succ fuel ih =>
    obtain ⟨marked, todo, work⟩ := s
    subst idle
    rw [Collector.mark, sim.roots] at success
    cases work with
    | nil => exact ⟨marked, .refl, Except.ok.inj success ▸ sim⟩
    | cons region rest =>
      have step : (wordGraph g₀ layout extent chunks).Step ⟨marked, [], region :: rest⟩
          ⟨marked, regionWords region, rest⟩ := .pop
      have popped : Simulates g₀ layout chunks
          { g with collector := { g.collector with roots := rest } }
          ⟨marked, regionWords region, rest⟩ := { sim with roots := rfl }
      obtain ⟨g₁, s₁, scanned, steps, sim₁, done, -⟩ :=
        scanWords clear heap enough _ region.1 popped rfl
      dsimp only at success
      rw [Collector.scanRegion, scanned, ok_bind] at success
      obtain ⟨marked', rest', sim'⟩ := ih sim₁ done success
      exact ⟨marked', (Relation.ReflTransGen.single step).trans (steps.trans rest'), sim'⟩

end Simulates

/-! ## The states of a marking phase -/

/-- The states that the loops of `GC_Collector_mark` go through: the heap, how many words of the
popped region are left, the next one, and the regions that were pushed so far. -/
inductive Scanning (env : Env) (start : Gc) : Gc → Nat → Nat → List Region → Prop where
  | start : Scanning env start start 0 0 []
  | pop {g : Gc} {sp : Nat} {pushed : List Region} {region : Region} {rest : List Region}
      (before : Scanning env start g 0 sp pushed) (roots : g.collector.roots = region :: rest) :
      Scanning env start { g with collector := { g.collector with roots := rest } }
        (regionWords region).length region.1 pushed
  | word {g g' : Gc} {count sp : Nat} {pushed new : List Region}
      (before : Scanning env start g (count + 1) sp pushed)
      (point : Collector.markPointer env (g.memory.load sp) g = .ok g')
      (roots : g'.collector.roots = new ++ g.collector.roots) :
      Scanning env start g' count (sp + wordSize) (new ++ pushed)

section Phase
variable {g start middle : Gc} {layout : Nat → Layout} {extent : Nat → Nat} {chunks : List Nat}
  {env : Env}

/-- Every state of the phase is a state of the marker. -/
theorem Scanning.simulated (clear : MarksClear g layout chunks)
    (heap : ObjectHeap g layout extent chunks) (enough : chunks.length < env.fuel)
    {roots : List Region} (sim : Simulates g layout chunks start ⟨[], [], roots⟩) {count sp : Nat}
    {pushed : List Region} (scanning : Scanning env start middle count sp pushed) :
    ∃ s, (wordGraph g layout extent chunks).Steps ⟨[], [], roots⟩ s ∧
      Simulates g layout chunks middle s ∧
      s.todo = ((List.range count).map fun i => sp + i * wordSize) ∧
      pushed = (wordGraph g layout extent chunks).pushed s.marked := by
  induction scanning with
  | start => exact ⟨_, .refl, sim, rfl, rfl⟩
  | @pop g₁ sp pushed region rest before stack ih =>
    obtain ⟨⟨marked, todo, work⟩, steps, sim₁, reading, log⟩ := ih
    obtain rfl : work = region :: rest := sim₁.roots.symm.trans stack
    obtain rfl : todo = [] := reading
    refine ⟨⟨marked, regionWords region, rest⟩, steps.tail .pop, { sim₁ with roots := rfl }, ?_, log⟩
    simp only [regionWords, List.length_map, List.length_range]
  | @word g₁ g₂ count sp pushed new before point stack ih =>
    obtain ⟨s, steps, sim₁, reading, log⟩ := ih
    rw [List.range_succ_eq_map, List.map_cons, List.map_map, Nat.zero_mul, Nat.add_zero] at reading
    obtain ⟨g', s', point', step, sim₂⟩ := sim₁.markPointer clear heap reading enough
    obtain rfl : g₂ = g' := Except.ok.inj (point.symm.trans point')
    have todo := (step.potential reading).1
    refine ⟨s', steps.tail step, sim₂, ?_, ?_⟩
    · rw [todo]
      refine List.map_congr_left fun i _ => ?_
      simp only [Function.comp_apply, wordSize]
      omega
    · have works := sim₂.roots
      rw [stack, sim₁.roots] at works
      cases step with
      | pop => cases reading
      | skip known =>
        rw [List.append_left_eq_self.mp works, log]
        rfl
      | mark fresh only =>
        rw [List.append_cancel_right works, log, WordGraph.pushed_cons]

theorem addRoots_eq {regions : List Region} {rooted : Gc}
    (pushed : regions.foldlM (fun g region => Collector.addRoots region g) g = .ok rooted) :
    rooted = { g with collector := { g.collector with
      roots := regions.reverse ++ g.collector.roots } } := by
  induction regions generalizing g with
  | nil => exact (Except.ok.inj pushed).symm
  | cons region rest ih =>
    rw [List.foldlM_cons] at pushed
    obtain ⟨next, added, others⟩ := bind_eq_ok.mp pushed
    rw [Collector.addRoots] at added
    obtain ⟨-, -, done⟩ := bind_eq_ok.mp added
    rw [ih others, ← Except.ok.inj done, Collector.pushRoots, List.reverse_cons, List.append_assoc]
    rfl

/-- A region that is pushed for an object tells which object. -/
theorem region_own (x y : Nat) (region : Region)
    (hx : (wordGraph g layout extent chunks).region x = some region)
    (hy : (wordGraph g layout extent chunks).region y = some region) : x = y := by
  rw [wordGraph] at hx hy
  dsimp only at hx hy
  split at hx
  · split at hy
    · have same := congrArg Prod.fst ((Option.some.inj hx).trans (Option.some.inj hy).symm)
      simp only [payload, Object.mutatorAddress] at same
      omega
    · cases hy
  · cases hx

theorem mem_pushed {marked : List Nat} {region : Region}
    (member : region ∈ (wordGraph g layout extent chunks).pushed marked) :
    ∃ x ∈ marked, g.objectAtomic x = 0 ∧ region = payload g x := by
  obtain ⟨x, inMarked, same⟩ := List.mem_filterMap.mp member
  rw [wordGraph] at same
  dsimp only at same
  split at same
  · next plain => exact ⟨x, inMarked, plain, (Option.some.inj same).symm⟩
  · cases same

/-- Marking terminates and is complete. When it returns, every allocated object that a word of a
root region or of a marked object without the atomic flag points into is marked. On the way
only such regions are read, none is pushed twice, and only mark bytes change. -/
theorem marking_is_complete (heap : ObjectHeap g layout extent chunks)
    (clear : MarksClear g layout chunks) (empty : g.collector.roots = []) {regions : List Region}
    {rooted : Gc}
    (roots : regions.foldlM (fun g region => Collector.addRoots region g) g = .ok rooted)
    (enough : regions.length + (objects g layout chunks).length + chunks.length < env.fuel) :
    ∃ g', Collector.mark env env.fuel rooted = .ok g' ∧
      (∀ o, Allocated g layout extent chunks o → ∀ a,
        ((∃ region ∈ regions, a ∈ regionWords region) ∨
          ∃ x ∈ objects g layout chunks, g'.isMarked x = true ∧ g.objectAtomic x = 0 ∧
            a ∈ regionWords (payload g x)) →
        InPayload g o (g'.memory.load a) → g'.isMarked o = true) ∧
      (∀ middle count sp pushed, Scanning env rooted middle count sp pushed →
        pushed.Nodup ∧
        (∀ region ∈ pushed, ∃ x ∈ objects g layout chunks,
          g.objectAtomic x = 0 ∧ region = payload g x) ∧
        middle.collector.roots.length ≤ regions.length + (objects g layout chunks).length ∧
        ∀ i < count, ∃ region, (region ∈ regions ∨ region ∈ pushed) ∧
          sp + i * wordSize ∈ regionWords region) ∧
      (∀ a, (∀ o ∈ smallObjects g layout, a ≠ o + 8) → g'.memory.load a = g.memory.load a) ∧
      ∀ o, Allocated g layout extent chunks o → ∀ a, InPayload g o a →
        g'.memory.load a = g.memory.load a := by
  obtain rfl := addRoots_eq roots
  rw [empty, List.append_nil]
  have sim : Simulates g layout chunks
      { g with collector := { g.collector with roots := regions.reverse } }
      ⟨[], [], regions.reverse⟩ := { Simulates.start g layout chunks with roots := rfl }
  have start := WordGraph.Tricolour.start (wordGraph g layout extent chunks) regions.reverse
  have walks : chunks.length < env.fuel := by omega
  obtain ⟨g', marked, run, steps, sim'⟩ := Simulates.mark clear heap walks env.fuel sim start
    rfl (by simp only [List.length_reverse, List.length_nil]; omega)
  have inv := start.steps steps
  have known : ∀ o ∈ marked, o ∈ objects g layout chunks := sim'.known
  refine ⟨g', run, ?_, ?_, sim'.other, ?_⟩
  · intro o allocated a read points
    have inObjects : o ∈ objects g layout chunks := by
      rcases allocated with ⟨small, -⟩ | large
      · exact List.mem_append_left _ small
      · exact List.mem_append_right _ large
    rw [sim'.isMarked clear heap inObjects, decide_eq_true_iff]
    have reaches : (wordGraph g layout extent chunks).reaches a o :=
      ⟨allocated, (heap.inPayload_congr allocated (sim'.load_div clear a)).mp points⟩
    rcases read with ⟨region, isRoot, within⟩ | ⟨x, inList, isMarked, plain, within⟩
    · exact inv.complete (Or.inl (List.mem_reverse.mpr isRoot)) within reaches
    · rw [sim'.isMarked clear heap inList, decide_eq_true_iff] at isMarked
      refine inv.complete (Or.inr (List.mem_filterMap.mpr ⟨x, isMarked, ?_⟩)) within reaches
      exact if_pos plain
  · intro middle count sp pushed scanning
    obtain ⟨s, steps₁, sim₁, reading, rfl⟩ := scanning.simulated clear heap walks sim
    have inv₁ := start.steps steps₁
    have few : ((wordGraph g layout extent chunks).pushed s.marked).length ≤
        (objects g layout chunks).length :=
      Nat.le_trans (List.length_filterMap_le _ _)
        (List.subperm_of_subset inv₁.nodup fun o member => sim₁.known o member).length_le
    refine ⟨inv₁.pushed_nodup region_own, fun region member => ?_, ?_, fun i bound => ?_⟩
    · obtain ⟨x, inMarked, plain, same⟩ := mem_pushed member
      exact ⟨x, sim₁.known x inMarked, plain, same⟩
    · have stack := inv₁.stack
      rw [List.length_reverse] at stack
      rw [sim₁.roots]
      omega
    · obtain ⟨region, origin, within⟩ := inv₁.todo (sp + i * wordSize) (by
        rw [reading]
        exact List.mem_map.mpr ⟨i, List.mem_range.mpr bound, rfl⟩)
      exact ⟨region, origin.imp_left List.mem_reverse.mp, within⟩
  · exact fun o allocated a inside =>
      sim'.other a fun x member => heap.payload_ne_markWord allocated inside member

end Phase

/-- A root word at 0x1000, and a chunk, point to a small object. -/
def rootMemory : Memory :=
  ⟨fun a => if a = 0x1000 then 0x8118 else if a = 0x20020 then 0x8110 else 0⟩

/-- The small object has 32 bytes and points back to the chunk. -/
def cycleGc : Gc :=
  { firstLineMarked with
    memory := (bumpMemory rootMemory 0x8100 0x10000 32 0).store 0x8110 0x20020
    block := fun _ => updatedHeader Block.init 0x8000 0 0x8100
    global := { firstLineMarked.global with
      smallHeapStop := 0x10000
      largeHeapStart := 0x20000
      largeHeapStop := 0x20040
      largeChunkList := ⟨fun _ => ⟨null, 1, ⟨48, 0, 0⟩⟩, 0x20000, 0x20000, 1⟩ } }

/-- One root word marks both objects of the cycle. -/
theorem cycle_is_marked :
    ∃ env g', Collector.mark env env.fuel
        { cycleGc with collector := { cycleGc.collector with roots := [(0x1000, 0x1008)] } } = .ok g' ∧
      g'.isMarked 0x8100 = true ∧ g'.isMarked 0x20010 = true := by
  have filled : Filled 0x8000 rootMemory _ :=
    .write (.allocate .free 32 0 ⟨by decide, by decide, by decide, by decide,
        lineUpdate_eq (i := 0) (by decide) (by decide) (by decide) (by decide) (by decide)⟩)
      0x8110 0x20020 List.mem_cons_self (by decide) (by decide)
  obtain ⟨layout, holes, extent, view, handed⟩ := filled.viewOk (by decide)
  have blocks : cycleGc.global.blocks = [0x8000] := by decide
  have heap : ObjectHeap cycleGc (fun _ => layout) extent [0x20000] := by
    refine ⟨by decide, fun b member => ?_, ⟨⟨rfl, rfl⟩, ⟨rfl, rfl⟩, rfl, rfl, by decide, by decide⟩,
      fun c member => ?_, by decide, by decide⟩
    · rw [blocks, List.mem_singleton] at member
      subst member
      exact view.ok.subset (List.nil_sublist _)
    · rw [List.mem_singleton] at member
      subst member
      decide
  obtain ⟨⟨i, walked⟩, -, whole⟩ := view.live (0x8100, 32) List.mem_cons_self
  have small : 0x8100 ∈ smallObjects cycleGc fun _ => layout :=
    heap.mem_smallObjects.mpr ⟨0x8000, by rw [blocks]; exact List.mem_singleton_self _, i, walked⟩
  have large : 0x20010 ∈ largeObjects cycleGc [0x20000] := by decide
  have only : ∀ o ∈ smallObjects cycleGc fun _ => layout, o = 0x8100 := by
    intro o member
    obtain ⟨b, -, j, inLine⟩ := heap.mem_smallObjects.mp member
    obtain ⟨size, given⟩ := handed o ⟨j, inLine⟩
    exact congrArg Prod.fst (List.mem_singleton.mp given)
  have clear : MarksClear cycleGc (fun _ => layout) [0x20000] := by
    refine ⟨fun o member => ?_, fun c _ => rfl⟩
    rw [only o member]
    decide
  let env : Env := ⟨(objects cycleGc (fun _ => layout) [0x20000]).length + 3, id, fun _ _ => []⟩
  have roots : [(0x1000, 0x1008)].foldlM (fun g region => Collector.addRoots region g) cycleGc =
      .ok { cycleGc with collector := { cycleGc.collector with roots := [(0x1000, 0x1008)] } } := rfl
  have enough : 1 + (objects cycleGc (fun _ => layout) [0x20000]).length + 1 < env.fuel := by
    show _ < _ + 3
    omega
  obtain ⟨g', run, complete, -, frame, same⟩ := marking_is_complete heap clear rfl roots enough
  have smallSize : cycleGc.objectSize 0x8100 = 32 := by decide
  have largeSize : cycleGc.objectSize 0x20010 = 48 := by decide
  have allocated : Allocated cycleGc (fun _ => layout) extent [0x20000] 0x8100 :=
    Or.inl ⟨small, whole⟩
  have first : g'.isMarked 0x8100 = true := by
    refine complete 0x8100 allocated 0x1000 (Or.inl ⟨_, List.mem_singleton_self _, by decide⟩) ?_
    rw [frame 0x1000 fun o member => by rw [only o member]; decide, InPayload, smallSize]
    decide
  have second : g'.isMarked 0x20010 = true := by
    refine complete 0x20010 (Or.inr large) 0x8110 (Or.inr ⟨0x8100, List.mem_append_left _ small,
      first, by decide, ?_⟩) ?_
    · decide
    · rw [same 0x8100 allocated 0x8110 ⟨by decide, by rw [smallSize]; decide⟩, InPayload, largeSize]
      decide
  exact ⟨env, g', run, first, second⟩

end ImmixGc.Guarantees
