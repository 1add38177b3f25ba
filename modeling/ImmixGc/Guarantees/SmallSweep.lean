import ImmixGc.Guarantees.BlockRecycling

/-!
# Sweeping the small heap

`GC_GlobalAllocator_recycleBlocks` visits the blocks in address order. It puts the unmarked
ones on the free list, those with two neighbouring unmarked lines on the recyclable list
with their holes, and no other.
-/
namespace ImmixGc.Guarantees
open Source Foundation

/-- A line that a hole may take: it and the line before are unmarked. -/
def HasHole (headers : Nat → LineHeader) : Prop :=
  ∃ i < lineCount, 1 ≤ i ∧ (headers i).isMarked = false ∧ (headers (i - 1)).isMarked = false

@[irreducible] instance hasHoleDecidable (headers : Nat → LineHeader) : Decidable (HasHole headers) :=
  inferInstanceAs (Decidable (∃ i < lineCount, _))

theorem Recycled.hasHole_iff {memory memory' : Memory} {header header' : Block} {block : Nat}
    {holes : List (Nat × Nat)} (recycled : Recycled memory header block holes memory' header') :
    HasHole header.lineHeaders ↔ holes ≠ [] := by
  constructor
  · rintro ⟨i, bound, later, unmarked, previous⟩ none
    obtain ⟨hole, member, -⟩ := recycled.complete i later bound unmarked previous
    rw [none] at member
    cases member
  · intro some
    obtain ⟨hole, rest, rfl⟩ := List.exists_cons_of_ne_nil some
    obtain ⟨lines, bound⟩ := recycled.lines hole (by simp)
    obtain ⟨unmarked, previous⟩ := lines.unmarked hole.1 (Nat.le_refl _) lines.some
    have := lines.some
    exact ⟨hole.1, by omega, lines.start, unmarked, previous⟩

theorem Recycled.isRecyclable_iff {memory memory' : Memory} {header header' : Block} {block : Nat}
    {holes : List (Nat × Nat)} (recycled : Recycled memory header block holes memory' header') :
    header'.isRecyclable = true ↔ HasHole header.lineHeaders := by
  rw [recycled.hasHole_iff, Block.isRecyclable, beq_iff_eq]
  cases holes with
  | nil => simp [recycled.unavailable rfl]
  | cons hole rest => simp [(recycled.chain hole rest rfl).1]

/-! ## The blocks of the heap -/

theorem blocks_pairwise (global : GlobalAllocator) :
    global.blocks.Pairwise fun x y => x + blockSize ≤ y := by
  rw [GlobalAllocator.blocks, List.pairwise_map]
  refine List.pairwise_lt_range.imp fun {i j} less => ?_
  simp only [blockSize]
  omega

theorem mem_blocks {global : GlobalAllocator} {block : Nat} :
    block ∈ global.blocks ↔ ∃ i, block = global.smallHeapStart + i * blockSize ∧
      block < global.smallHeapStop := by
  simp only [GlobalAllocator.blocks, List.mem_map, List.mem_range]
  constructor
  · rintro ⟨i, bound, rfl⟩
    refine ⟨i, rfl, ?_⟩
    simp only [blockSize] at *
    omega
  · rintro ⟨i, rfl, inside⟩
    refine ⟨i, ?_, rfl⟩
    simp only [blockSize] at *
    omega

/-! ## The block loop -/

theorem recycleBlock_free {g : Gc} {block : Nat} (unmarked : (g.block block).isMarked = false) :
    GlobalAllocator.recycleBlock g block = { g with
      block := (g.global.freeList.push (store g.block block Block.init) block).1
      global := { g.global with
        freeList := (g.global.freeList.push (store g.block block Block.init) block).2 } } := by
  simp only [GlobalAllocator.recycleBlock, if_pos unmarked]

theorem recycleBlock_kept {g : Gc} {block : Nat} {header header' : Block} {memory : Memory}
    (same : g.block block = header) (marked : header.isMarked = true)
    (ran : GlobalAllocator.recycleLines g.memory header block = (memory, header')) :
    GlobalAllocator.recycleBlock g block =
      if header'.isRecyclable then { g with
        memory := memory
        block := (g.global.recyclableList.push (store g.block block header') block).1
        global := { g.global with
          recyclableList := (g.global.recyclableList.push (store g.block block header') block).2 } }
      else { g with memory := memory, block := store g.block block header' } := by
  have kept : ¬ (g.block block).isMarked = false := by
    rw [same, marked]
    simp
  simp only [GlobalAllocator.recycleBlock, if_neg kept]
  rw [same, ran]

/-- The state of `recycleBlocks` after the blocks of `done`. -/
structure SweepState (g₀ : Gc) (done : List Nat) (g : Gc) : Prop where
  free : Listed g.block g.global.freeList (done.filter fun b => !(g₀.block b).isMarked)
  recyclable : Listed g.block g.global.recyclableList
    (done.filter fun b => (g₀.block b).isMarked && decide (HasHole (g₀.block b).lineHeaders))
  freed : ∀ b ∈ done, (g₀.block b).isMarked = false → SameBlock (g.block b) Block.init
  kept : ∀ b ∈ done, (g₀.block b).isMarked = true →
    ∃ holes, Recycled g₀.memory (g₀.block b) b holes g.memory (g.block b)
  others : ∀ b, b ∉ done → g.block b = g₀.block b
  loads : ∀ a, (∀ b ∈ done, (g₀.block b).isMarked = true → a < Block.start b ∨ Block.stop b ≤ a) →
    g.memory.load a = g₀.memory.load a
  rest : g = { g₀ with
    memory := g.memory
    block := g.block
    global := { g₀.global with
      freeList := g.global.freeList, recyclableList := g.global.recyclableList } }

namespace SweepState
variable {g₀ g : Gc} {done : List Nat} {block : Nat}

/-- An unmarked block goes to the free list. -/
theorem freeBlock (state : SweepState g₀ done g) (fresh : block ∉ done) (some : block ≠ null)
    (unmarked : (g₀.block block).isMarked = false) :
    SweepState g₀ (done ++ [block]) (GlobalAllocator.recycleBlock g block) := by
  have here : (g.block block).isMarked = false := by rw [state.others block fresh, unmarked]
  have inDone : ∀ {p : Nat → Bool} {x : Nat}, x ∈ done.filter p → x ∈ done :=
    fun member => List.mem_of_mem_filter member
  have cleared : Listed (store g.block block Block.init) g.global.freeList
      (done.filter fun b => !(g₀.block b).isMarked) := by
    refine state.free.congr fun x member => ?_
    rw [store_other]
    rintro rfl
    exact fresh (inDone member)
  have same : ∀ x, SameBlock ((g.global.freeList.push (store g.block block Block.init) block).1 x)
      (store g.block block Block.init x) := fun x => Listed.push_same _ _ _ x
  have unchanged : ∀ x, x ∉ done.filter (fun b => !(g₀.block b).isMarked) → x ≠ block →
      (g.global.freeList.push (store g.block block Block.init) block).1 x = g.block x := by
    intro x outside different
    rw [cleared.push_other outside different, store_other _ _ _ _ different]
  rw [recycleBlock_free here]
  refine ⟨?_, ?_, ?_, ?_, ?_, ?_, ?_⟩
  · rw [List.filter_append, List.filter_singleton, unmarked]
    exact cleared.push (fun member => fresh (inDone member)) some
  · rw [List.filter_append, List.filter_singleton, unmarked]
    simp only [Bool.false_and, cond_false, List.append_nil]
    refine state.recyclable.congr fun x member => ?_
    have different : x ≠ block := by
      rintro rfl
      exact fresh (inDone member)
    rw [unchanged x (fun wrong => ?_) different]
    have marked := (List.mem_filter.mp member).2
    have notMarked := (List.mem_filter.mp wrong).2
    rw [Bool.and_eq_true] at marked
    rw [marked.1] at notMarked
    cases notMarked
  · intro b member unmarkedB
    rcases List.mem_append.mp member with old | new
    · refine (same b).trans ?_
      rw [store_other]
      · exact state.freed b old unmarkedB
      · rintro rfl
        exact fresh old
    · rw [List.mem_singleton.mp new]
      exact (same block).trans (by rw [store_same]; exact SameBlock.refl _)
  · intro b member marked
    rcases List.mem_append.mp member with old | new
    · obtain ⟨holes, recycled⟩ := state.kept b old marked
      refine ⟨holes, recycled.congr (fun a _ _ => rfl) ((same b).trans ?_)⟩
      rw [store_other]
      · exact SameBlock.refl _
      · rintro rfl
        exact fresh old
    · rw [List.mem_singleton.mp new, unmarked] at marked
      cases marked
  · intro b outside
    have different : b ≠ block := by
      rintro rfl
      exact outside (by simp)
    have notDone : b ∉ done := fun h => outside (by simp [h])
    exact (unchanged b (fun member => notDone (inDone member)) different).trans
      (state.others b notDone)
  · intro a away
    exact state.loads a fun b member => away b (by simp [member])
  · have rest := state.rest
    conv_lhs => rw [rest]

/-- A marked block is recycled, and listed when it has a hole. -/
theorem keepBlock (state : SweepState g₀ done g) (fresh : block ∉ done) (some : block ≠ null)
    (apart : ∀ b ∈ done, b + blockSize ≤ block)
    (marked : (g₀.block block).isMarked = true) :
    SweepState g₀ (done ++ [block]) (GlobalAllocator.recycleBlock g block) := by
  have inDone : ∀ {p : Nat → Bool} {x : Nat}, x ∈ done.filter p → x ∈ done :=
    fun member => List.mem_of_mem_filter member
  obtain ⟨holes, recycled, outside⟩ := recycleLines_spec g.memory (g.block block) block
  rw [state.others block fresh] at recycled outside
  generalize ran : GlobalAllocator.recycleLines g.memory (g₀.block block) block = result at *
  rw [recycleBlock_kept (state.others block fresh) marked ran]
  -- the lines of the block were not touched before
  have recycled : Recycled g₀.memory (g₀.block block) block holes result.1 result.2 := by
    refine ⟨recycled.lines, recycled.maximal, recycled.complete, recycled.ordered, recycled.chain,
      recycled.unavailable, recycled.cleared, recycled.marked, fun a low high away => ?_⟩
    rw [recycled.frame a low high away]
    refine state.loads a fun b member _ => Or.inr ?_
    have := apart b member
    simp only [Block.start, Block.stop, blockSize] at *
    omega
  have keeps : ∀ b ∈ done, ∀ header, SameBlock header (g.block b) →
      (g₀.block b).isMarked = true → ∃ holes,
        Recycled g₀.memory (g₀.block b) b holes result.1 header := by
    intro b member header same markedB
    obtain ⟨holes, old⟩ := state.kept b member markedB
    refine ⟨holes, old.congr (fun a low high => outside a (Or.inl ?_)) same⟩
    have := apart b member
    simp only [Block.start, Block.stop, blockSize] at *
    omega
  have loads : ∀ a, (∀ b ∈ done ++ [block], (g₀.block b).isMarked = true →
      a < Block.start b ∨ Block.stop b ≤ a) → result.1.load a = g₀.memory.load a := by
    intro a away
    rw [outside a (away block (by simp) marked)]
    exact state.loads a fun b member => away b (by simp [member])
  have ne_of_mem : ∀ b ∈ done, b ≠ block := by
    rintro b member rfl
    exact fresh member
  have free : Listed (store g.block block result.2) g.global.freeList
      (done.filter fun b => !(g₀.block b).isMarked) := by
    refine state.free.congr fun x member => ?_
    rw [store_other _ _ _ _ (ne_of_mem x (inDone member))]
  have recyclable : Listed (store g.block block result.2) g.global.recyclableList
      (done.filter fun b => (g₀.block b).isMarked && decide (HasHole (g₀.block b).lineHeaders)) := by
    refine state.recyclable.congr fun x member => ?_
    rw [store_other _ _ _ _ (ne_of_mem x (inDone member))]
  have rest := state.rest
  by_cases has : result.2.isRecyclable = true
  · have hole := recycled.isRecyclable_iff.mp has
    have same : ∀ x, SameBlock
        ((g.global.recyclableList.push (store g.block block result.2) block).1 x)
        (store g.block block result.2 x) := fun x => Listed.push_same _ _ _ x
    have unchanged : ∀ x, x ∉ done.filter (fun b => (g₀.block b).isMarked &&
          decide (HasHole (g₀.block b).lineHeaders)) → x ≠ block →
        (g.global.recyclableList.push (store g.block block result.2) block).1 x = g.block x := by
      intro x outside different
      rw [recyclable.push_other outside different, store_other _ _ _ _ different]
    rw [if_pos has]
    refine ⟨?_, ?_, ?_, ?_, ?_, loads, ?_⟩
    · rw [List.filter_append, List.filter_singleton, marked]
      simp only [Bool.not_true, cond_false, List.append_nil]
      refine state.free.congr fun x member => ?_
      rw [unchanged x (fun wrong => ?_) (ne_of_mem x (inDone member))]
      have markedX := (List.mem_filter.mp wrong).2
      have notMarked := (List.mem_filter.mp member).2
      rw [Bool.and_eq_true] at markedX
      rw [markedX.1] at notMarked
      cases notMarked
    · rw [List.filter_append, List.filter_singleton, marked]
      simp only [Bool.true_and, hole, decide_true, cond_true]
      exact recyclable.push (fun member => fresh (inDone member)) some
    · intro b member unmarkedB
      rcases List.mem_append.mp member with old | new
      · refine (same b).trans ?_
        rw [store_other _ _ _ _ (ne_of_mem b old)]
        exact state.freed b old unmarkedB
      · rw [List.mem_singleton.mp new, marked] at unmarkedB
        cases unmarkedB
    · intro b member markedB
      rcases List.mem_append.mp member with old | new
      · refine keeps b old _ ((same b).trans ?_) markedB
        rw [store_other _ _ _ _ (ne_of_mem b old)]
        exact SameBlock.refl _
      · obtain rfl := List.mem_singleton.mp new
        refine ⟨holes, recycled.congr (fun _ _ _ => rfl) ((same b).trans ?_)⟩
        rw [store_same]
        exact SameBlock.refl _
    · intro b outsideB
      have different : b ≠ block := by
        rintro rfl
        exact outsideB (by simp)
      have notDone : b ∉ done := fun h => outsideB (by simp [h])
      exact (unchanged b (fun member => notDone (inDone member)) different).trans
        (state.others b notDone)
    · conv_lhs => rw [rest]
  · have noHole : ¬ HasHole (g₀.block block).lineHeaders :=
      fun hole => has (recycled.isRecyclable_iff.mpr hole)
    rw [if_neg has]
    refine ⟨?_, ?_, ?_, ?_, ?_, loads, ?_⟩
    · rw [List.filter_append, List.filter_singleton, marked]
      simpa using free
    · rw [List.filter_append, List.filter_singleton, marked]
      rw [Bool.true_and, decide_eq_false noHole, cond_false, List.append_nil]
      exact recyclable
    · intro b member unmarkedB
      rcases List.mem_append.mp member with old | new
      · dsimp only
        rw [store_other _ _ _ _ (ne_of_mem b old)]
        exact state.freed b old unmarkedB
      · rw [List.mem_singleton.mp new, marked] at unmarkedB
        cases unmarkedB
    · intro b member markedB
      rcases List.mem_append.mp member with old | new
      · dsimp only
        rw [store_other _ _ _ _ (ne_of_mem b old)]
        exact keeps b old _ (SameBlock.refl _) markedB
      · obtain rfl := List.mem_singleton.mp new
        dsimp only
        rw [store_same]
        exact ⟨holes, recycled⟩
    · intro b outsideB
      have different : b ≠ block := by
        rintro rfl
        exact outsideB (by simp)
      have notDone : b ∉ done := fun h => outsideB (by simp [h])
      dsimp only
      rw [store_other _ _ _ _ different]
      exact state.others b notDone
    · conv_lhs => rw [rest]

end SweepState

/-- What `recycleBlocks` does to the small heap. -/
theorem recycleBlocks_spec (g : Gc) (mapped : 0 < g.global.smallHeapStart) :
    SweepState g g.global.blocks (GlobalAllocator.recycleBlocks g) := by
  rw [GlobalAllocator.recycleBlocks]
  have pairwise := blocks_pairwise g.global
  have positive : ∀ b ∈ g.global.blocks, b ≠ null := by
    intro b member
    obtain ⟨i, rfl, -⟩ := mem_blocks.mp member
    simp only [null]
    omega
  -- the fold, `done` blocks behind it
  have run : ∀ rest done g', done ++ rest = g.global.blocks → SweepState g done g' →
      SweepState g g.global.blocks (rest.foldl GlobalAllocator.recycleBlock g') := by
    intro rest
    induction rest with
    | nil =>
      intro done g' split state
      rw [List.append_nil] at split
      rw [← split]
      exact state
    | cons block rest ih =>
      intro done g' split state
      have apart : ∀ b ∈ done, b + blockSize ≤ block := by
        intro b member
        rw [← split, List.pairwise_append] at pairwise
        exact pairwise.2.2 b member block (by simp)
      have fresh : block ∉ done := by
        intro member
        have := apart block member
        simp only [blockSize] at this
        omega
      have some := positive block (by rw [← split]; simp)
      rw [List.foldl_cons]
      refine ih (done ++ [block]) _ (by rw [List.append_assoc]; exact split) ?_
      cases marked : (g.block block).isMarked with
      | false => exact state.freeBlock fresh some marked
      | true => exact state.keepBlock fresh some apart marked
  refine run g.global.blocks [] _ rfl ?_
  exact ⟨Listed.empty _, Listed.empty _, by simp, by simp, fun _ _ => rfl, fun _ _ => rfl, rfl⟩

/-! ## Runs of unmarked lines -/

/-- Lines `a` to `b` are a maximal run of unmarked lines. -/
structure MaximalRun (headers : Nat → LineHeader) (a b : Nat) : Prop where
  bounds : a ≤ b ∧ b < lineCount
  unmarked : ∀ i, a ≤ i → i ≤ b → (headers i).isMarked = false
  starts : a = 0 ∨ (headers (a - 1)).isMarked = true
  stops : b + 1 = lineCount ∨ (headers (b + 1)).isMarked = true

/-- The holes of a recycled block are the maximal runs of at least two lines, without their
first lines. -/
theorem Recycled.holes_iff {memory memory' : Memory} {header header' : Block} {block : Nat}
    {holes : List (Nat × Nat)} (recycled : Recycled memory header block holes memory' header')
    (j k : Nat) : (j, k) ∈ holes ↔
      ∃ a b, MaximalRun header.lineHeaders a b ∧ a < b ∧ j = a + 1 ∧ k = b + 1 := by
  constructor
  · intro member
    obtain ⟨lines, bound⟩ := recycled.lines _ member
    obtain ⟨starts, stops⟩ := recycled.maximal _ member
    have start := lines.start
    have some := lines.some
    dsimp only at lines bound starts stops start some
    refine ⟨j - 1, k - 1, ⟨by omega, ?_, ?_, ?_⟩, by omega, by omega, by omega⟩
    · intro i low high
      rcases Nat.lt_or_ge i j with before | inside
      · obtain rfl : i = j - 1 := by omega
        exact (lines.unmarked j (Nat.le_refl _) some).2
      · exact (lines.unmarked i inside (by omega)).1
    · rcases starts with first | marked
      · exact Or.inl (by omega)
      · exact Or.inr marked
    · rw [show k - 1 + 1 = k by omega]
      exact stops
  · rintro ⟨a, b, run, more, rfl, rfl⟩
    have bounds := run.bounds
    -- the hole that the second line of the run belongs to is the run
    obtain ⟨hole, member, low, high⟩ := recycled.complete (a + 1) (by omega) (by omega)
      (run.unmarked (a + 1) (by omega) (by omega)) (run.unmarked a (by omega) (by omega))
    obtain ⟨lines, bound⟩ := recycled.lines hole member
    obtain ⟨starts, stops⟩ := recycled.maximal hole member
    have start := lines.start
    have firstLine : hole.1 = a + 1 := by
      by_contra different
      have before := (lines.unmarked a (by omega) (by omega)).2
      rcases run.starts with zero | marked
      · omega
      · rw [marked] at before
        cases before
    have lastLine : hole.2 = b + 1 := by
      rcases Nat.lt_trichotomy hole.2 (b + 1) with short | same | long
      · rcases stops with all | marked
        · omega
        · rw [run.unmarked hole.2 (by omega) (by omega)] at marked
          cases marked
      · exact same
      · have after := (lines.unmarked (b + 1) (by omega) long).1
        rcases run.stops with all | marked
        · omega
        · rw [marked] at after
          cases after
    obtain ⟨first, second⟩ := hole
    dsimp only at firstLine lastLine
    subst firstLine lastLine
    exact member

/-- Holes are separated by marked lines. -/
theorem Recycled.separated {memory memory' : Memory} {header header' : Block} {block : Nat}
    {holes : List (Nat × Nat)} (recycled : Recycled memory header block holes memory' header') :
    holes.Pairwise fun x y => x.1 < x.2 ∧ x.2 < y.1 := by
  refine recycled.ordered.imp_of_mem fun {x y} hx hy le => ?_
  obtain ⟨lines, -⟩ := recycled.lines x hx
  obtain ⟨lines', bound'⟩ := recycled.lines y hy
  have start := lines'.start
  have some := lines'.some
  refine ⟨lines.some, ?_⟩
  rcases Nat.lt_or_eq_of_le le with less | same
  · exact less
  · -- the line between two holes would be unmarked
    have next := (lines'.unmarked y.1 (Nat.le_refl _) some).1
    rcases (recycled.maximal x hx).2 with all | marked
    · omega
    · rw [same, next] at marked
      cases marked

/-- A block on the recyclable list: its chain of holes, from the first free line on. -/
structure PublishedHoles (header header' : Block) (memory' : Memory) (block : Nat) : Prop where
  flag : header'.flag = .recyclable
  holes : ∃ holes : List (Nat × Nat), ∃ first : Nat,
    (∀ j k, (j, k) ∈ holes ↔
      ∃ a b, MaximalRun header.lineHeaders a b ∧ a < b ∧ j = a + 1 ∧ k = b + 1) ∧
    (holes.Pairwise fun x y => x.1 < x.2 ∧ x.2 < y.1) ∧
    header'.firstFreeLineIndex = first ∧ holes.head?.map Prod.fst = some first ∧
    Links (fun hole => memory'.load (hole + 8)) (Block.line block first)
      (holes.map fun hole => Block.line block hole.1) null ∧
    ∀ hole ∈ holes, memory'.load (Block.line block hole.1) = Block.line block hole.2

/-- Sweeping the small heap publishes exactly the right blocks, lists and holes. -/
theorem recycleBlocks_publishes (g : Gc) (mapped : 0 < g.global.smallHeapStart) :
    (g.global.blocks.Pairwise fun x y => x + blockSize ≤ y) ∧
    Listed (GlobalAllocator.recycleBlocks g).block (GlobalAllocator.recycleBlocks g).global.freeList
      (g.global.blocks.filter fun b => !(g.block b).isMarked) ∧
    Listed (GlobalAllocator.recycleBlocks g).block
      (GlobalAllocator.recycleBlocks g).global.recyclableList
      (g.global.blocks.filter fun b =>
        (g.block b).isMarked && decide (HasHole (g.block b).lineHeaders)) ∧
    ∀ b ∈ g.global.blocks,
      ((g.block b).isMarked = false →
        SameBlock ((GlobalAllocator.recycleBlocks g).block b) Block.init) ∧
      ((g.block b).isMarked = true →
        (∀ i, ((GlobalAllocator.recycleBlocks g).block b).lineHeaders i =
          if i < lineCount ∧ ((g.block b).lineHeaders i).isMarked = false then LineHeader.clear
          else (g.block b).lineHeaders i) ∧
        if HasHole (g.block b).lineHeaders then
          PublishedHoles (g.block b) ((GlobalAllocator.recycleBlocks g).block b)
            (GlobalAllocator.recycleBlocks g).memory b
        else ((GlobalAllocator.recycleBlocks g).block b).flag = .unavailable) := by
  have state := recycleBlocks_spec g mapped
  refine ⟨blocks_pairwise g.global, state.free, state.recyclable, fun b member =>
    ⟨state.freed b member, fun marked => ?_⟩⟩
  obtain ⟨holes, recycled⟩ := state.kept b member marked
  refine ⟨recycled.cleared, ?_⟩
  by_cases has : HasHole (g.block b).lineHeaders
  · rw [if_pos has]
    obtain ⟨hole, rest, rfl⟩ := List.exists_cons_of_ne_nil (recycled.hasHole_iff.mp has)
    obtain ⟨flag, first, chain⟩ := recycled.chain hole rest rfl
    refine ⟨flag, hole :: rest, hole.1, recycled.holes_iff, recycled.separated, first, rfl, ?_, ?_⟩
    · have links := chain.links
      rw [List.map_map] at links
      exact links
    · intro x inHoles
      exact chain.limits (span b x) (List.mem_map.mpr ⟨x, inHoles, rfl⟩)
  · rw [if_neg has]
    refine recycled.unavailable ?_
    by_contra some
    exact has (recycled.hasHole_iff.mpr some)

/-- Two blocks, of which only the first line of the first one is marked. -/
def firstLineMarked : Gc :=
  { memory := ⟨fun _ => 0⟩
    block := fun b => { Block.init with
      marked := if b = 0x8000 then 1 else 0
      lineHeaders := fun i => if i = 0 then LineHeader.mark LineHeader.clear else LineHeader.clear }
    global :=
      { smallHeapSize := 0x10000
        smallHeapStart := 0x8000
        smallHeapStop := 0x18000
        freeList := BlockList.clear
        recyclableList := BlockList.clear
        largeHeapSize := 0
        largeHeapStart := 0
        largeHeapStop := 0
        largeChunkList := ChunkList.clear fun _ => ⟨null, 0, ⟨0, 0, 0⟩⟩
        finalizers := ⟨fun _ => Entry.zero, 7, 0, 0⟩
        memoryLimit := 0x20000
        freeSpaceDivisor := 3
        allocatedBytesSinceCollect := 0
        totalAllocatedBytes := 0 }
    localAllocator := fun _ => ⟨0, 0, 0, 0, 0, 0, 0⟩
    localAllocators := []
    current := null
    collector := ⟨[], false⟩
    rootScript := []
    history := History.empty }

/-- The first block is published with one hole, from line 2 to its end; the other is free. -/
theorem firstLineMarked_publishes :
    Listed (GlobalAllocator.recycleBlocks firstLineMarked).block
      (GlobalAllocator.recycleBlocks firstLineMarked).global.freeList [0x10000] ∧
    Listed (GlobalAllocator.recycleBlocks firstLineMarked).block
      (GlobalAllocator.recycleBlocks firstLineMarked).global.recyclableList [0x8000] ∧
    PublishedHoles (firstLineMarked.block 0x8000)
      ((GlobalAllocator.recycleBlocks firstLineMarked).block 0x8000)
      (GlobalAllocator.recycleBlocks firstLineMarked).memory 0x8000 := by
  obtain ⟨-, free, recyclable, blocks⟩ := recycleBlocks_publishes firstLineMarked (by decide)
  have published := ((blocks 0x8000 (by decide)).2 (by decide)).2
  have has : HasHole (firstLineMarked.block 0x8000).lineHeaders :=
    ⟨2, by decide, by decide, by decide, by decide⟩
  have lists : firstLineMarked.global.blocks.filter (fun b => (firstLineMarked.block b).isMarked &&
      decide (HasHole (firstLineMarked.block b).lineHeaders)) = [0x8000] := by decide +kernel
  rw [if_pos has] at published
  rw [lists] at recyclable
  exact ⟨free, recyclable, published⟩

end ImmixGc.Guarantees
