import ImmixGc.Guarantees.SmallSweep

/-!
# Marking is sound for sweeping

`Collector_findAndMarkSmallObject` marks one line of an object that is no larger than a
line, although such an object may reach into the next one. The sweep never opens a hole in
the first line of an unmarked run, so no byte of a marked object ends up in one.
-/
namespace ImmixGc.Guarantees
open Source Foundation

/-- Small objects of a heap that do not overlap, whatever the line tables say. -/
structure SmallObjects (g : Gc) (objects : List Nat) : Prop where
  heap : g.global.smallHeapStart % blockSize = 0 ∧ 0 < g.global.smallHeapStart
  shape : ∀ o ∈ objects, o % wordSize = 0 ∧ sizeofObject ≤ Object.size g.memory o ∧
    Object.size g.memory o ≤ largeObjectSize
  inLines : ∀ o ∈ objects, Block.from o ∈ g.global.blocks ∧ Block.start (Block.from o) ≤ o ∧
    o + Object.size g.memory o ≤ Block.stop (Block.from o)
  apart : ∀ x ∈ objects, ∀ y ∈ objects, x ≠ y →
    x + Object.size g.memory x ≤ y ∨ y + Object.size g.memory y ≤ x

/-- All mark bits are clear. -/
structure Unmarked (g : Gc) (objects : List Nat) : Prop where
  objects : ∀ o ∈ objects, Object.isMarked g.memory o = false
  blocks : ∀ b ∈ g.global.blocks, (g.block b).isMarked = false
  lines : ∀ b ∈ g.global.blocks, ∀ i, ((g.block b).lineHeaders i).isMarked = false

/-- Calls of `findAndMarkSmallObject`, each for a pointer whose search ends at one of the
objects or at none. -/
inductive MarkCalls (objects : List Nat) (g : Gc) : Gc → Prop where
  | none : MarkCalls objects g g
  | call {middle after : Gc} (before : MarkCalls objects g middle) (pointer : Nat)
      (found : ∀ i o, Collector.findSmallObject middle.memory (middle.block (Block.from pointer))
        (Block.from pointer) pointer = .ok (some (i, o)) → o ∈ objects)
      (run : Collector.findAndMarkSmallObject pointer middle = .ok after) :
      MarkCalls objects g after

/-- The walk of a line stays in the line. -/
theorem findInLine_inLine {memory : Memory} {pointer line object : Nat} (fuel offset : Nat)
    (found : Collector.findInLine memory pointer line fuel offset = .ok (some object)) :
    line ≤ object ∧ object < line + lineSize := by
  induction fuel generalizing offset with
  | zero => cases found
  | succ fuel ih =>
    rw [Collector.findInLine] at found
    split at found
    · next inside =>
      split at found
      · cases found
      · split at found
        · cases found
        · split at found
          · simp only [Except.ok.injEq, Option.some.injEq] at found
            omega
          · exact ih _ found
    · cases found

/-- A search from a pointer stays in the lines of its block. -/
theorem findSmallObject_inLine {memory : Memory} {header : Block} {pointer i object : Nat}
    (found : Collector.findSmallObject memory header (Block.from pointer) pointer =
      .ok (some (i, object))) :
    i < lineCount ∧ Block.line (Block.from pointer) i ≤ object ∧
      object < Block.line (Block.from pointer) i + lineSize := by
  have inBlock : pointer < Block.stop (Block.from pointer) := by
    simp only [Block.from, Block.stop, blockSize]
    omega
  rw [Collector.findSmallObject] at found
  cases search : (Collector.searchStart header (Block.from pointer) pointer).bind
      (Collector.searchLines header.lineHeaders) with
  | none =>
    rw [search] at found
    cases found
  | some index =>
    rw [search] at found
    obtain ⟨result, walked, same⟩ := bind_eq_ok.mp found
    cases result with
    | none => cases same
    | some o =>
      simp only [Option.map_some, Except.ok.injEq, Option.some.injEq, Prod.mk.injEq] at same
      obtain ⟨rfl, rfl⟩ := same
      obtain ⟨start, started, searched⟩ := Option.bind_eq_some_iff.mp search
      obtain ⟨le, -⟩ := searchLines_some searched
      refine ⟨?_, findInLine_inLine _ _ walked⟩
      have := searchStart_lt inBlock started
      omega

/-- The block and line of an object, and that its mark is a mark of its lines. -/
def LineMarked (g : Gc) (object : Nat) : Prop :=
  ∃ i < lineCount, Block.line (Block.from object) i ≤ object ∧
    object < Block.line (Block.from object) i + lineSize ∧
    (g.block (Block.from object)).isMarked = true ∧
    Guarded (g.block (Block.from object)).lineHeaders (Block.from object) i object
      (Object.size g.memory object)

/-- What calls of `findAndMarkSmallObject` keep: only mark bytes change, and every marked
object has its lines marked. -/
structure MarkedLines (objects : List Nat) (g g' : Gc) : Prop where
  global : g'.global = g.global
  loads : ∀ a, (∀ o ∈ objects, a ≠ o + 8) → g'.memory.load a = g.memory.load a
  lines : ∀ o ∈ objects, Object.isMarked g'.memory o = true → LineMarked g' o

@[simp] theorem scanObject_memory (g : Gc) (object size atomic : Nat) :
    (Collector.scanObject g object size atomic).memory = g.memory := by
  rw [Collector.scanObject]
  split <;> rfl

@[simp] theorem scanObject_block (g : Gc) (object size atomic : Nat) :
    (Collector.scanObject g object size atomic).block = g.block := by
  rw [Collector.scanObject]
  split <;> rfl

@[simp] theorem scanObject_global (g : Gc) (object size atomic : Nat) :
    (Collector.scanObject g object size atomic).global = g.global := by
  rw [Collector.scanObject]
  split <;> rfl

/-- The three outcomes of `findAndMarkSmallObject`: nothing found, found but marked, or
marked now and pushed for scanning. -/
theorem findAndMark_cases {pointer : Nat} {g g' : Gc}
    (run : Collector.findAndMarkSmallObject pointer g = .ok g') :
    g' = g ∨ ∃ i object, Collector.findSmallObject g.memory (g.block (Block.from pointer))
        (Block.from pointer) pointer = .ok (some (i, object)) ∧
      Object.isMarked g.memory object = false ∧
      g' = Collector.scanObject { g with
          memory := (Collector.markSmallObject g.memory (g.block (Block.from pointer))
            (Block.from pointer) i object).1
          block := store g.block (Block.from pointer) (Collector.markSmallObject g.memory
            (g.block (Block.from pointer)) (Block.from pointer) i object).2 }
        object (Object.size g.memory object) (Object.atomic g.memory object) := by
  rw [Collector.findAndMarkSmallObject] at run
  obtain ⟨found, search, run⟩ := bind_eq_ok.mp run
  cases found with
  | none =>
    simp only [Except.ok.injEq] at run
    exact Or.inl run.symm
  | some place =>
    obtain ⟨i, object⟩ := place
    dsimp only at run
    split at run
    · simp only [Except.ok.injEq] at run
      exact Or.inl run.symm
    · next unmarked =>
      simp only [Except.ok.injEq] at run
      exact Or.inr ⟨i, object, search, by simpa using unmarked, run.symm⟩

/-- An address in the lines of an aligned block belongs to that block. -/
theorem from_eq {block a : Nat} (aligned : block % blockSize = 0) (low : block ≤ a)
    (high : a < Block.stop block) : Block.from a = block := by
  simp only [Block.from, Block.stop, blockSize] at *
  omega

theorem from_aligned (pointer : Nat) : Block.from pointer % blockSize = 0 := by
  simp only [Block.from, blockSize]
  omega

section Marking
variable {objects : List Nat} {g middle after : Gc}

/-- The header of an object is not the mark word of another. -/
theorem SmallObjects.ne_markWord (small : SmallObjects g objects) {x o : Nat} (hx : x ∈ objects)
    (ho : o ∈ objects) : x ≠ o + 8 := by
  rintro rfl
  have := (small.shape o ho).2.1
  have := (small.shape _ hx).2.1
  have := small.apart o ho (o + 8) hx (by omega)
  simp only [sizeofObject] at *
  omega

theorem MarkedLines.size (marked : MarkedLines objects g middle) (small : SmallObjects g objects)
    {o : Nat} (member : o ∈ objects) : Object.size middle.memory o = Object.size g.memory o :=
  marked.loads o fun _ other => small.ne_markWord member other

/-- One call. -/
theorem MarkedLines.call (marked : MarkedLines objects g middle) (small : SmallObjects g objects)
    {pointer : Nat}
    (found : ∀ i o, Collector.findSmallObject middle.memory (middle.block (Block.from pointer))
      (Block.from pointer) pointer = .ok (some (i, o)) → o ∈ objects)
    (run : Collector.findAndMarkSmallObject pointer middle = .ok after) :
    MarkedLines objects g after := by
  rcases findAndMark_cases run with rfl | ⟨i, object, search, -, rfl⟩
  · exact marked
  have member := found i object search
  obtain ⟨bound, low, high⟩ := findSmallObject_inLine search
  have size := marked.size small member
  have shape := small.shape object member
  have place : Block.from object = Block.from pointer := by
    refine from_eq (from_aligned pointer) ?_ ?_
    · simp only [Block.line, Block.start] at low
      omega
    · simp only [Block.line, Block.start, Block.stop, lineSize, lineCount, blockSize] at *
      omega
  rw [markSmallObject_eq _ ⟨low, high⟩ (by omega)]
  refine ⟨by rw [scanObject_global]; exact marked.global, ?_, ?_⟩
  · intro a away
    rw [scanObject_memory]
    dsimp only
    rw [Object.mark, Object.load_setMarked, if_neg (away object member)]
    exact marked.loads a away
  · intro x hx isMarked
    rw [scanObject_memory] at isMarked
    dsimp only at isMarked
    have sizeX : Object.size (Object.mark middle.memory object) x = Object.size middle.memory x := by
      rw [Object.size, Object.mark, Object.load_setMarked, if_neg (small.ne_markWord hx member)]
      rfl
    by_cases same : x = object
    · subst same
      refine ⟨i, bound, by rw [place]; exact low, by rw [place]; exact high, ?_, ?_⟩
      · rw [scanObject_block, place]
        dsimp only
        rw [store_same]
        rfl
      · intro j covered
        rw [scanObject_memory, place] at covered
        rw [scanObject_block, place]
        dsimp only at covered ⊢
        rw [sizeX] at covered
        rw [store_same]
        dsimp only
        rw [if_pos covered]
        exact LineHeader.isMarked_mark _
    · have before : Object.isMarked middle.memory x = true := by
        rw [← isMarked]
        refine (Object.isMarked_congr ?_).symm
        rw [Object.mark, Object.load_setMarked, if_neg (by omega)]
      obtain ⟨k, boundK, lowK, highK, blockMarked, guarded⟩ := marked.lines x hx before
      refine ⟨k, boundK, lowK, highK, ?_, ?_⟩
      · rw [scanObject_block]
        dsimp only
        rw [store_apply]
        split
        · rfl
        · exact blockMarked
      · intro j covered
        rw [scanObject_memory] at covered
        rw [scanObject_block]
        dsimp only at covered ⊢
        rw [sizeX] at covered
        have already := guarded j covered
        rw [store_apply]
        split
        · next sameBlock =>
          rw [sameBlock] at already
          dsimp only
          split
          · exact LineHeader.isMarked_mark _
          · exact already
        · exact already

/-- The run lemma. -/
theorem MarkCalls.markedLines (calls : MarkCalls objects g after) (small : SmallObjects g objects)
    (unmarked : Unmarked g objects) : MarkedLines objects g after := by
  induction calls with
  | none =>
    refine ⟨rfl, fun _ _ => rfl, fun o member marked => ?_⟩
    rw [unmarked.objects o member] at marked
    cases marked
  | call before pointer found run ih => exact ih.call small found run

/-- From clear marks and any calls of `findAndMarkSmallObject`, sweeping leaves every marked
object alone: its block is not freed, no published hole and no hole record touches it, and
its bytes are what they were. -/
theorem marked_objects_survive_sweep (small : SmallObjects g objects)
    (unmarked : Unmarked g objects) (calls : MarkCalls objects g after) :
    ∃ free, Listed (GlobalAllocator.recycleBlocks after).block
        (GlobalAllocator.recycleBlocks after).global.freeList free ∧
      ∀ o ∈ objects, Object.isMarked after.memory o = true →
        Block.from o ∉ free ∧
        (∀ b ∈ g.global.blocks,
          ((GlobalAllocator.recycleBlocks after).block b).flag = .recyclable →
          ∃ holes, ∃ first : Nat,
            ((GlobalAllocator.recycleBlocks after).block b).firstFreeLineIndex = first ∧
            HoleChain (GlobalAllocator.recycleBlocks after).memory (Block.line b first) holes ∧
            ∀ hole ∈ holes, (o + Object.size g.memory o ≤ hole.1 ∨ hole.2 ≤ o) ∧
              (o + Object.size g.memory o ≤ hole.1 ∨ hole.1 + 16 ≤ o)) ∧
        ∀ a, o ≤ a → a < o + Object.size g.memory o →
          (GlobalAllocator.recycleBlocks after).memory.load a = after.memory.load a := by
  have marked := calls.markedLines small unmarked
  have swept := recycleBlocks_spec after (by rw [marked.global]; exact small.heap.2)
  refine ⟨_, swept.free, fun o member isMarked => ?_⟩
  obtain ⟨i, bound, low, high, blockMarked, guarded⟩ := marked.lines o member isMarked
  rw [marked.size small member] at guarded
  obtain ⟨inHeap, startLe, stopLe⟩ := small.inLines o member
  have avoids := guarded.avoids low high
  have first : ((after.block (Block.from o)).lineHeaders i).isMarked = true := guarded i (Or.inl rfl)
  -- a hole of the object's block
  have beside : ∀ j k, HoleLines (after.block (Block.from o)).lineHeaders j k →
      o + Object.size g.memory o ≤ Block.line (Block.from o) j ∨ Block.line (Block.from o) k ≤ o :=
    fun j k lines => lines.outside first low high avoids
  have sized := (small.shape o member).2.1
  refine ⟨?_, ?_, ?_⟩
  · intro freed
    have := (List.mem_filter.mp freed).2
    rw [blockMarked] at this
    cases this
  · intro b hb flag
    rw [← marked.global] at hb
    by_cases markedB : (after.block b).isMarked = true
    · obtain ⟨holes, recycled⟩ := swept.kept b hb markedB
      cases holes with
      | nil =>
        rw [recycled.unavailable rfl] at flag
        cases flag
      | cons hole rest =>
        obtain ⟨-, firstIndex, chain⟩ := recycled.chain hole rest rfl
        refine ⟨_, hole.1, firstIndex, chain, fun published inSpans => ?_⟩
        obtain ⟨lines, inHoles, rfl⟩ := List.mem_map.mp inSpans
        obtain ⟨holeLines, top⟩ := recycled.lines lines inHoles
        have room : Block.line b lines.1 + 16 ≤ Block.line b lines.2 := by
          have := holeLines.some
          simp only [Block.line, lineSize]
          omega
        have inside := holeLines.record_within b top
        by_cases same : b = Block.from o
        · subst same
          rcases beside _ _ holeLines with before | behind
          · exact ⟨Or.inl before, Or.inl before⟩
          · exact ⟨Or.inr behind, Or.inr (by simp only [span]; omega)⟩
        · -- another block
          have stop : Block.line b lines.2 ≤ Block.stop b := by
            rw [← line_lineCount]
            exact line_le _ top
          have apart : Block.stop (Block.from o) ≤ b ∨ Block.stop b ≤ Block.from o := by
            obtain ⟨x, ex, -⟩ := mem_blocks.mp inHeap
            obtain ⟨y, ey, -⟩ := mem_blocks.mp hb
            rw [marked.global] at ey
            have different : x ≠ y := by
              rintro rfl
              exact same (ey.trans ex.symm)
            simp only [Block.stop, blockSize] at *
            omega
          simp only [span, Block.start, Block.stop] at *
          omega
    · have freed := swept.freed b hb (by simpa using markedB)
      rw [freed.flag] at flag
      cases flag
  · intro a lowA highA
    obtain ⟨holes, recycled⟩ := swept.kept _ (by rw [marked.global]; exact inHeap) blockMarked
    refine recycled.frame a (by omega) (by omega) fun hole inHoles => ?_
    obtain ⟨lines, top⟩ := recycled.lines hole inHoles
    have some := line_le (Block.from o) (show hole.1 + 1 ≤ hole.2 from lines.some)
    rw [← line_succ, lineSize] at some
    rcases beside _ _ lines with before | behind <;> omega

end Marking

/-- Two unmarked blocks; the first holds one object of 272 bytes, which is larger than a line. -/
def oneObject : Gc :=
  { firstLineMarked with
    memory := ⟨fun a => if a = 0x8100 then 272 else 0⟩
    block := fun _ => { Block.init with
      lineHeaders := fun i => if i = 0 then LineHeader.setOffset 0 else LineHeader.clear } }

theorem oneObject_survives_sweep :
    ∃ after free, Collector.findAndMarkSmallObject 0x8118 oneObject = .ok after ∧
      Object.isMarked after.memory 0x8100 = true ∧
      Listed (GlobalAllocator.recycleBlocks after).block
        (GlobalAllocator.recycleBlocks after).global.freeList free ∧ 0x8000 ∉ free := by
  have search : Collector.findSmallObject oneObject.memory (oneObject.block (Block.from 0x8118))
      (Block.from 0x8118) 0x8118 = .ok (some (0, 0x8100)) := by decide +kernel
  have ends : (Collector.findAndMarkSmallObject 0x8118 oneObject).map
      (fun after => Object.isMarked after.memory 0x8100) = .ok true := by decide +kernel
  have heap : oneObject.global.blocks = [0x8000, 0x10000] := by decide +kernel
  cases run : Collector.findAndMarkSmallObject 0x8118 oneObject with
  | error stop =>
    rw [run] at ends
    cases ends
  | ok after =>
    rw [run] at ends
    have isMarked : Object.isMarked after.memory 0x8100 = true := by simpa [Except.map] using ends
    have small : SmallObjects oneObject [0x8100] := by
      refine ⟨by decide, ?_, ?_, ?_⟩
      · intro o member
        rw [List.mem_singleton.mp member]
        decide
      · intro o member
        rw [List.mem_singleton.mp member, heap]
        decide
      · intro x hx y hy different
        rw [List.mem_singleton.mp hx, List.mem_singleton.mp hy] at different
        exact absurd rfl different
    have unmarked : Unmarked oneObject [0x8100] := by
      refine ⟨?_, fun _ _ => rfl, fun b _ i => ?_⟩
      · intro o member
        rw [List.mem_singleton.mp member]
        decide
      · show LineHeader.isMarked (if i = 0 then LineHeader.setOffset 0 else LineHeader.clear) = false
        split <;> decide
    have calls : MarkCalls [0x8100] oneObject after := by
      refine .call .none 0x8118 (fun i o found => ?_) run
      rw [search] at found
      simp only [Except.ok.injEq, Option.some.injEq, Prod.mk.injEq] at found
      simp [found.2.symm]
    obtain ⟨free, listed, survives⟩ := marked_objects_survive_sweep small unmarked calls
    exact ⟨after, free, rfl, isMarked, listed, (survives 0x8100 (by simp) isMarked).1⟩

end ImmixGc.Guarantees
