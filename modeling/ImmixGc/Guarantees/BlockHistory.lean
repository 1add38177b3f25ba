import ImmixGc.Guarantees.BlockAllocation
import ImmixGc.Guarantees.BlockRecycling

/-!
# The history of one block

A block is filled by bump allocations, through the holes that the last sweep left in it or
from end to end when it is free, and collected, over and over. `ViewOk` is the invariant:
`BlockOk` with the allocator's interval and the holes still to come as the free ones.
-/
namespace ImmixGc.Guarantees
open Source Foundation

/-- One block, and what an allocator that owns it knows of it. `live` are the objects (with
their sizes) allocated since the last collection or marked by all collections since. -/
structure BlockView where
  memory : Memory
  header : Block
  cursor : Nat
  limit : Nat
  next : Nat
  live : List (Nat × Nat)

/-- A free block. -/
def BlockView.fresh (memory : Memory) (block : Nat) : BlockView :=
  ⟨memory, Block.init, Block.start block, Block.stop block, null, []⟩

/-- What `findAndMarkSmallObject` does to the block of the pointer. -/
def markInBlock (block : Nat) (s : Memory × Block) (pointer : Nat) : Result (Memory × Block) := do
  let found ← Collector.findSmallObject s.1 s.2 block pointer
  match found with
  | none => .ok s
  | some place =>
    if Object.isMarked s.1 place.2 then .ok s
    else .ok (Collector.markSmallObject s.1 s.2 block place.1 place.2)

/-- The block after a sweep, as the allocator that takes it next sees it. Nothing can be
allocated in a block without holes. -/
def BlockView.swept (block : Nat) (memory : Memory) (header : Block) (live : List (Nat × Nat)) :
    BlockView :=
  let live := live.filter fun o => Object.isMarked memory o.1
  if header.isMarked = false then { BlockView.fresh memory block with live := live }
  else
    let recycled := GlobalAllocator.recycleLines memory header block
    if recycled.2.isRecyclable then
      let hole := Block.start block + lineSize * recycled.2.firstFreeLineIndex.toNat
      ⟨recycled.1, recycled.2, hole, recycled.1.load hole, recycled.1.load (hole + 8), live⟩
    else ⟨recycled.1, recycled.2, Block.stop block, Block.stop block, null, live⟩

/-- `LocalAllocator_tryAllocateSmall` and `Object_allocate` in the current interval. -/
def BlockView.bump (s : BlockView) (header : Block) (size atomic : Nat) : BlockView :=
  { s with
    memory := bumpMemory s.memory s.cursor s.limit size atomic
    header := header
    cursor := s.cursor + size
    live := (s.cursor, size) :: s.live }

/-- The object fits the current interval, and `Line_update` returns `header`. -/
structure Fits (block : Nat) (s : BlockView) (header : Block) (size : Nat) : Prop where
  word : size % wordSize = 0
  least : sizeofObject ≤ size
  most : size ≤ largeObjectSize
  room : s.cursor + size ≤ s.limit
  updated : lineUpdate s.header block s.cursor = .ok header

inductive BlockStep (block : Nat) : BlockView → BlockView → Prop where
  | allocate {s : BlockView} {header : Block} (size atomic : Nat) (fits : Fits block s header size) :
      BlockStep block s (s.bump header size atomic)
  /-- `LocalAllocator_findNextHole`. -/
  | nextHole {s : BlockView} (some : s.next ≠ null) :
      BlockStep block s { s with
        cursor := s.next, limit := s.memory.load s.next, next := s.memory.load (s.next + 8) }
  /-- The client writes into an object. -/
  | write {s : BlockView} {object : Nat × Nat} (a value : Nat) (owned : object ∈ s.live)
      (payload : object.1 + sizeofObject ≤ a ∧ a < object.1 + object.2) (word : a % wordSize = 0) :
      BlockStep block s { s with memory := s.memory.store a value }
  /-- A collection that meets any pointers into the block. -/
  | collect {s : BlockView} (pointers : List Nat) (marked : Memory × Block)
      (inside : ∀ p ∈ pointers, p < Block.stop block)
      (marks : pointers.foldlM (markInBlock block)
        (Collector.unmarkLines block lineCount 0 (s.memory, { s.header with marked := 0 })) = .ok marked) :
      BlockStep block s (.swept block marked.1 marked.2 s.live)

inductive BlockRun (block : Nat) (start : BlockView) : BlockView → Prop where
  | start : BlockRun block start start
  | step {s s' : BlockView} (run : BlockRun block start s) (step : BlockStep block s s') :
      BlockRun block start s'

/-- The invariant: `holes` are the holes after the current interval. -/
structure ViewOk (block : Nat) (s : BlockView) (layout : Layout) (holes : List (Nat × Nat))
    (extent : Nat → Nat) : Prop where
  ok : BlockOk s.memory s.header.lineHeaders block layout ((s.cursor, s.limit) :: holes) extent
  chain : HoleChain s.memory s.next holes
  live : ∀ o ∈ s.live, layout.Walked o.1 ∧ Object.size s.memory o.1 = o.2 ∧ extent o.1 = o.2

/-- A chain survives writes outside its holes. -/
theorem HoleChain.congr {memory memory' : Memory} {first : Nat} {holes : List (Nat × Nat)}
    (chain : HoleChain memory first holes)
    (same : ∀ hole ∈ holes, memory'.load hole.1 = memory.load hole.1 ∧
      memory'.load (hole.1 + 8) = memory.load (hole.1 + 8)) : HoleChain memory' first holes := by
  refine ⟨chain.links.congr fun a member => ?_, fun hole member => ?_, chain.room⟩
  · obtain ⟨hole, inHoles, rfl⟩ := List.mem_map.mp member
    exact (same hole inHoles).2
  · rw [(same hole member).1]
    exact chain.limits hole member

/-- Marking from any pointers into the block. -/
theorem markInBlock_spec {block : Nat} {layout : Layout} {free : List (Nat × Nat)}
    {extent : Nat → Nat} (pointers : List Nat) (inside : ∀ p ∈ pointers, p < Block.stop block)
    {s s' : Memory × Block} (ok : BlockOk s.1 s.2.lineHeaders block layout free extent)
    (marks : MarksOk s.1 s.2 block layout)
    (run : pointers.foldlM (markInBlock block) s = .ok s') :
    BlockOk s'.1 s'.2.lineHeaders block layout free extent ∧ MarksOk s'.1 s'.2 block layout ∧
      OnlyMarks layout s.1 s'.1 := by
  induction pointers generalizing s with
  | nil =>
    simp only [List.foldlM_nil, pure, Except.pure, Except.ok.injEq] at run
    subst run
    exact ⟨ok, marks, OnlyMarks.refl _ _⟩
  | cons p pointers ih =>
    rw [List.foldlM_cons] at run
    obtain ⟨middle, first, rest⟩ := bind_eq_ok.mp run
    -- one pointer
    have step : BlockOk middle.1 middle.2.lineHeaders block layout free extent ∧
        MarksOk middle.1 middle.2 block layout ∧ OnlyMarks layout s.1 middle.1 := by
      rw [markInBlock] at first
      rcases ok.findSmallObject_total p (inside p (by simp)) with
        none | ⟨i, object, member, contains, found⟩
      · rw [none, ok_bind] at first
        simp only [Except.ok.injEq] at first
        subst first
        exact ⟨ok, marks, OnlyMarks.refl _ _⟩
      · rw [found, ok_bind] at first
        dsimp only at first
        split at first
        · simp only [Except.ok.injEq] at first
          subst first
          exact ⟨ok, marks, OnlyMarks.refl _ _⟩
        · simp only [Except.ok.injEq] at first
          obtain ⟨ok', marks', only, -⟩ := ok.mark member marks first
          exact ⟨ok', marks', only⟩
    obtain ⟨ok', marks', only⟩ := step
    obtain ⟨ok'', marks'', only'⟩ := ih (fun p member => inside p (by simp [member])) ok' marks' rest
    exact ⟨ok'', marks'', only.trans only'⟩

/-- An interval without bytes at the end of the block. -/
theorem BlockOk.full {memory : Memory} {headers : Nat → LineHeader} {block : Nat} {layout : Layout}
    {extent : Nat → Nat} (ok : BlockOk memory headers block layout [] extent) :
    BlockOk memory headers block layout [(Block.stop block, Block.stop block)] extent := by
  have aligned := ok.aligned
  refine ⟨aligned, ok.absent, ok.walk, ok.shape, ok.extents, ok.apart, ⟨?_, by simp⟩, ?_, ?_, ?_, ?_⟩
  · intro hole member
    rw [List.mem_singleton.mp member]
    simp only [Block.start, Block.stop, blockSize, lineSize, wordSize] at *
    omega
  · intro object walked hole member
    rw [List.mem_singleton.mp member]
    have := (ok.shape object walked).2.2.2.2
    have := (ok.extents object walked).2
    simp only [objectStop] at *
    exact Or.inl (by omega)
  · intro i bound has short
    refine ⟨(ok.terminator i bound has short).1, fun hole member => ?_⟩
    rw [List.mem_singleton.mp member]
    have := line_le block (show i + 1 ≤ lineCount from bound)
    rw [line_lineCount, ← line_succ] at this
    exact Or.inl (by omega)
  · intro i bound hole member low high
    rw [List.mem_singleton.mp member] at low high
    omega
  · intro i bound hole member has low high open'
    rw [List.mem_singleton.mp member] at open'
    omega

/-- Every object that walks visit has all its bytes to itself. -/
def AllBytes (memory : Memory) (layout : Layout) (extent : Nat → Nat) : Prop :=
  ∀ object, layout.Walked object → extent object = Object.size memory object

/-- The bytes that a sweep leaves an object: all of them to a marked one, its header to another. -/
def keptExtent (memory : Memory) (extent : Nat → Nat) (object : Nat) : Nat :=
  if Object.isMarked memory object then min (extent object) (Object.size memory object)
  else sizeofObject

section Swept
variable {memory memory' : Memory} {header header' : Block} {block : Nat} {layout : Layout}
  {free : List (Nat × Nat)} {extent : Nat → Nat} {live : List (Nat × Nat)}

/-- Nothing in an unmarked block is marked. -/
theorem MarksOk.dead (marks : MarksOk memory header block layout)
    (sized : ∀ o ∈ live, layout.Walked o.1 ∧ Object.size memory o.1 = o.2 ∧ extent o.1 = o.2)
    (unmarked : header.isMarked = false) :
    live.filter (fun o => Object.isMarked memory o.1) = [] := by
  rw [List.filter_eq_nil_iff]
  intro o member isMarked
  rw [marks.block o.1 (sized o member).1 isMarked] at unmarked
  cases unmarked

/-- The objects of marked lines keep their sizes. -/
theorem Recycled.size_keep {holes : List (Nat × Nat)}
    (recycled : Recycled memory header block holes memory' header')
    (ok : BlockOk memory header.lineHeaders block layout free extent) (object : Nat)
    (walked : (layout.keep header.lineHeaders).Walked object) :
    Object.size memory' object = Object.size memory object := by
  obtain ⟨i, member⟩ := walked
  obtain ⟨marked, member⟩ := Layout.mem_keep.mp member
  obtain ⟨low, high⟩ := ok.in_line member
  refine recycled.frame object ?_ ?_ fun hole inHoles => ?_
  · exact ok.start_le ⟨i, member⟩
  · have := (ok.shape object ⟨i, member⟩).2
    simp only [objectStop, sizeofObject] at this
    omega
  · obtain ⟨lines, top⟩ := recycled.lines hole inHoles
    have := lines.outside_word block marked (by omega) high
    have := line_le block (show hole.1 + 1 ≤ hole.2 from lines.some)
    rw [← line_succ, lineSize] at this
    omega

/-- A block that was marked and recycled: its marked objects keep their bytes. -/
theorem BlockOk.swept {holes : List (Nat × Nat)}
    (ok : BlockOk memory header.lineHeaders block layout free extent)
    (marks : MarksOk memory header block layout)
    (recycled : Recycled memory header block holes memory' header')
    (sized : ∀ o ∈ live, layout.Walked o.1 ∧ Object.size memory o.1 = o.2 ∧ extent o.1 = o.2) :
    ∃ layout' extent', BlockOk memory' header'.lineHeaders block layout' (holes.map (span block)) extent' ∧
      ∀ o ∈ live.filter (fun o => Object.isMarked memory o.1),
        layout'.Walked o.1 ∧ Object.size memory' o.1 = o.2 ∧ extent' o.1 = o.2 := by
  have kept : ∀ i, ∀ object ∈ layout.objects i, Object.isMarked memory object = true →
      (header.lineHeaders i).isMarked = true :=
    fun i object member isMarked => marks.guarded i object member isMarked i (Or.inl rfl)
  have place : ∀ object, (layout.keep header.lineHeaders).Walked object → ∃ i,
      (header.lineHeaders i).isMarked = true ∧ object ∈ layout.objects i ∧
      Block.line block i ≤ object ∧ object < Block.line block i + lineSize := by
    rintro object ⟨i, member⟩
    obtain ⟨marked, member⟩ := Layout.mem_keep.mp member
    have := ok.in_line member
    exact ⟨i, marked, member, by omega, this.2⟩
  have ok' := ok.recycle (keptExtent memory extent) recycled
    (fun object walked => by
      have := ok.extents object (Layout.walked_of_keep walked)
      rw [keptExtent]
      split <;> omega)
    (fun object walked => by
      obtain ⟨i, marked, member, low, high⟩ := place object walked
      have := ok.extents object ⟨i, member⟩
      rw [keptExtent]
      split
      · next isMarked =>
        have avoids := (marks.guarded i object member isMarked).avoids low high
        intro h start unmarkedH previous
        have := avoids h start unmarkedH previous
        omega
      · exact avoidsHoles_header marked low high)
  have size := recycled.size_keep ok
  refine ⟨layout.keep header.lineHeaders, keptExtent memory extent, ok', fun o member => ?_⟩
  obtain ⟨old, isMarked⟩ := List.mem_filter.mp member
  obtain ⟨⟨i, inLine⟩, sizeO, whole⟩ := sized o old
  have walked : (layout.keep header.lineHeaders).Walked o.1 :=
    ⟨i, Layout.mem_keep.mpr ⟨kept i o.1 inLine isMarked, inLine⟩⟩
  refine ⟨walked, (size o.1 walked).trans sizeO, ?_⟩
  rw [keptExtent, if_pos isMarked, sizeO, whole]
  exact Nat.min_self _

/-- A marked line's walk visits no object that a hole takes bytes of. -/
theorem BlockOk.avoids_of_noHole (ok : BlockOk memory header.lineHeaders block layout free extent)
    (isMarked : header.isMarked = true)
    (noHole : Collector.holeInObject memory header block = false) {object : Nat}
    (walked : (layout.keep header.lineHeaders).Walked object) :
    AvoidsHoles header.lineHeaders block object (Object.size memory object) := by
  obtain ⟨i, member⟩ := walked
  obtain ⟨marked, member⟩ := Layout.mem_keep.mp member
  obtain ⟨bound, contains⟩ := ok.contains_of_mem member
  intro h start unmarked previous
  by_contra overlap
  rw [not_or, Nat.not_le, Nat.not_le] at overlap
  have inBlock : h < lineCount := by
    by_contra outside
    have shape := (ok.shape object ⟨i, member⟩).2.2.2.2
    have := line_le block (Nat.not_lt.mp outside)
    rw [line_lineCount] at this
    simp only [objectStop] at shape
    omega
  have walk := (ok.walk i bound contains).1
  have objects : Collector.lineObjects memory (Block.line block i) lineSize
      (header.lineHeaders i).getOffset = layout.objects i :=
    lineObjects_eq _ _ _ walk (fun o inLine => (ok.sized i o inLine).1) (by omega)
  have found : Collector.holeInObject memory header block = true := by
    rw [Collector.holeInObject, isMarked, Bool.true_and, List.any_eq_true]
    refine ⟨i, List.mem_range.mpr bound, ?_⟩
    rw [marked, contains, objects, Bool.true_and, Bool.true_and, List.any_eq_true]
    refine ⟨object, member, List.any_eq_true.mpr ⟨h, List.mem_range.mpr inBlock, ?_⟩⟩
    simp [start, unmarked, previous, overlap.1, overlap.2]
  rw [found] at noHole
  cases noHole

/-- Where no hole lies in an object, the objects that stay keep all their bytes. -/
theorem BlockOk.sweptWhole {holes : List (Nat × Nat)}
    (ok : BlockOk memory header.lineHeaders block layout free extent)
    (marks : MarksOk memory header block layout)
    (recycled : Recycled memory header block holes memory' header')
    (sized : ∀ o ∈ live, layout.Walked o.1 ∧ Object.size memory o.1 = o.2 ∧ extent o.1 = o.2)
    (all : AllBytes memory layout extent) (isMarked : header.isMarked = true)
    (noHole : Collector.holeInObject memory header block = false) :
    ∃ layout' extent', BlockOk memory' header'.lineHeaders block layout' (holes.map (span block)) extent' ∧
      (∀ o ∈ live.filter (fun o => Object.isMarked memory o.1),
        layout'.Walked o.1 ∧ Object.size memory' o.1 = o.2 ∧ extent' o.1 = o.2) ∧
      AllBytes memory' layout' extent' := by
  have ok' := ok.recycle extent recycled
    (fun object walked => ⟨(ok.extents object (Layout.walked_of_keep walked)).1, Nat.le_refl _⟩)
    (fun object walked => by
      rw [all object (Layout.walked_of_keep walked)]
      exact ok.avoids_of_noHole isMarked noHole walked)
  have size := recycled.size_keep ok
  refine ⟨_, extent, ok', fun o member => ?_, fun object walked => ?_⟩
  · obtain ⟨old, marked⟩ := List.mem_filter.mp member
    obtain ⟨⟨i, inLine⟩, sizeO, whole⟩ := sized o old
    have walked : (layout.keep header.lineHeaders).Walked o.1 :=
      ⟨i, Layout.mem_keep.mpr ⟨marks.guarded i o.1 inLine marked i (Or.inl rfl), inLine⟩⟩
    exact ⟨walked, (size o.1 walked).trans sizeO, whole⟩
  · exact (all object (Layout.walked_of_keep walked)).trans (size object walked).symm

end Swept

namespace ViewOk
variable {block : Nat} {s : BlockView} {layout : Layout} {holes : List (Nat × Nat)}
  {extent : Nat → Nat}

theorem fresh (memory : Memory) (aligned : block % blockSize = 0) :
    ViewOk block (.fresh memory block) Layout.empty [] (fun _ => 0) :=
  ⟨BlockOk.free_block memory aligned _, ⟨rfl, by simp, by simp⟩, by simp [BlockView.fresh]⟩

/-- An allocation in the current interval. -/
theorem allocate (view : ViewOk block s layout holes extent) {header : Block} {size : Nat}
    (atomic : Nat) (fits : Fits block s header size) :
    ∃ layout' extent', ViewOk block (s.bump header size atomic) layout' holes extent' ∧
      (∀ x, layout'.Walked x → layout.Walked x ∨ x = s.cursor) ∧
      (AllBytes s.memory layout extent →
        AllBytes (s.bump header size atomic).memory layout' extent') := by
  obtain ⟨word, least, most, fits, updated⟩ := fits
  have within := view.ok.freeOk.within (s.cursor, s.limit) (by simp)
  have some : s.cursor < s.limit := by
    simp only [sizeofObject] at least
    omega
  obtain ⟨i, bound, low, high⟩ := view.ok.exists_line some
  rw [lineUpdate_eq view.ok.aligned bound low high within.1, Except.ok.injEq] at updated
  subst updated
  have sizes : ∀ x, layout.Walked x → x ≠ s.cursor ∧
      Object.size (s.bump (updatedHeader s.header block i s.cursor) size atomic).memory x =
        Object.size s.memory x := by
    intro x walked
    have outside := view.ok.outside x walked (s.cursor, s.limit) (by simp)
    have large := (view.ok.extents x walked).1
    dsimp only [BlockView.bump] at outside ⊢
    simp only [sizeofObject] at least large
    rw [Object.size, load_bumpMemory _ _ _ _ _ _ (by omega), if_neg (by omega), if_neg (by omega)]
    exact ⟨by omega, rfl⟩
  have own : Object.size (s.bump (updatedHeader s.header block i s.cursor) size atomic).memory s.cursor =
      size := by
    dsimp only [BlockView.bump]
    rw [Object.size, load_bumpMemory _ _ _ _ _ _ (by omega), if_pos rfl]
  refine ⟨_, _, ⟨view.ok.bump bound low high word least most fits, ?_, ?_⟩,
    fun x => Layout.walked_add.mp, fun all x walked => ?_⟩
  · refine view.chain.congr fun hole member => ?_
    have apart := List.rel_of_pairwise_cons view.ok.freeOk.apart member
    have room := view.chain.room hole member
    dsimp only [BlockView.bump] at apart ⊢
    simp only [sizeofObject] at least
    rw [load_bumpMemory _ _ _ _ _ _ (by omega), load_bumpMemory _ _ _ _ _ _ (by omega),
      if_neg (by omega), if_neg (by omega), if_neg (by omega), if_neg (by omega)]
    exact ⟨rfl, rfl⟩
  · intro o member
    rcases List.mem_cons.mp member with rfl | old
    · exact ⟨Layout.walked_add.mpr (Or.inr rfl), own, if_pos rfl⟩
    · obtain ⟨walked, sized, whole⟩ := view.live o old
      obtain ⟨different, size⟩ := sizes o.1 walked
      exact ⟨Layout.walked_add.mpr (Or.inl walked), size.trans sized, (if_neg different).trans whole⟩
  · rcases Layout.walked_add.mp walked with old | rfl
    · obtain ⟨different, size⟩ := sizes x old
      exact ((if_neg different).trans (all x old)).trans size.symm
    · exact (if_pos rfl).trans own.symm

/-- The next hole. -/
theorem nextHole (view : ViewOk block s layout holes extent) (some : s.next ≠ null) :
    ∃ holes', ViewOk block { s with
      cursor := s.next, limit := s.memory.load s.next, next := s.memory.load (s.next + 8) }
      layout holes' extent := by
  cases holes with
  | nil => exact absurd view.chain.links some
  | cons hole rest =>
    obtain ⟨first, links⟩ := view.chain.links
    have limit := view.chain.limits hole (by simp)
    refine ⟨rest, ?_, ⟨?_, fun h member => view.chain.limits h (by simp [member]),
      fun h member => view.chain.room h (by simp [member])⟩, view.live⟩
    · rw [first, limit]
      exact view.ok.subset (List.sublist_cons_self _ _)
    · rw [first]
      exact links

/-- A write into the payload of a live object. -/
theorem write (view : ViewOk block s layout holes extent) {object : Nat × Nat} {a : Nat} (value : Nat)
    (owned : object ∈ s.live) (payload : object.1 + sizeofObject ≤ a ∧ a < object.1 + object.2) :
    ViewOk block { s with memory := s.memory.store a value } layout holes extent := by
  obtain ⟨walked, sized, whole⟩ := view.live object owned
  have load : ∀ x, x ≠ a → (s.memory.store a value).load x = s.memory.load x :=
    fun x other => store_other _ _ _ _ other
  -- no word that a walk or a chain reads lies in the payload
  have sizes : ∀ x, layout.Walked x → x ≠ a := by
    rintro x hx rfl
    have := (view.ok.extents x hx).1
    have := view.ok.apart object.1 x walked hx (by simp only [sizeofObject] at payload; omega)
    simp only [sizeofObject] at *
    omega
  refine ⟨view.ok.congr (fun x hx => load x (sizes x hx)) ?_ (fun _ => rfl) (fun _ _ _ => rfl), ?_, ?_⟩
  · intro i bound has short
    refine load _ ?_
    rintro rfl
    have := (view.ok.terminator i bound has short).1 object.1 walked
    simp only [sizeofObject] at *
    omega
  · refine view.chain.congr fun hole member => ?_
    have := view.ok.outside object.1 walked hole (by simp [member])
    have := view.chain.room hole member
    simp only [sizeofObject] at payload
    exact ⟨load _ (by omega), load _ (by omega)⟩
  · intro o member
    obtain ⟨walkedO, sizedO, wholeO⟩ := view.live o member
    exact ⟨walkedO, (load o.1 (sizes o.1 walkedO)).trans sizedO, wholeO⟩

/-- The live objects after a sweep keep their bytes. -/
theorem swept {memory : Memory} {header : Block} {free : List (Nat × Nat)}
    (ok : BlockOk memory header.lineHeaders block layout free extent)
    (marks : MarksOk memory header block layout) {live : List (Nat × Nat)}
    (sized : ∀ o ∈ live, layout.Walked o.1 ∧ Object.size memory o.1 = o.2 ∧ extent o.1 = o.2) :
    ∃ layout' holes' extent', ViewOk block (.swept block memory header live) layout' holes' extent' := by
  by_cases unmarked : header.isMarked = false
  · rw [BlockView.swept, marks.dead sized unmarked, if_pos unmarked]
    exact ⟨_, _, _, fresh memory ok.aligned⟩
  · obtain ⟨holes, recycled, -⟩ := recycleLines_spec memory header block
    obtain ⟨layout', extent', ok', live'⟩ := ok.swept marks recycled sized
    rw [BlockView.swept]
    dsimp only
    rw [if_neg unmarked]
    generalize GlobalAllocator.recycleLines memory header block = result at *
    cases holes with
    | nil =>
      have flag : ¬ result.2.isRecyclable = true := by
        rw [Block.isRecyclable, recycled.unavailable rfl]
        decide
      rw [if_neg flag]
      exact ⟨layout', [], extent', ok'.full, ⟨rfl, by simp, by simp⟩, live'⟩
    | cons hole rest =>
      obtain ⟨flag, first, chain⟩ := recycled.chain hole rest rfl
      have recyclable : result.2.isRecyclable = true := by
        rw [Block.isRecyclable, flag]
        decide
      have start : Block.start block + lineSize * result.2.firstFreeLineIndex.toNat =
          Block.line block hole.1 := by
        rw [first, Block.line, Nat.mul_comm]
        rfl
      have limit := chain.limits (span block hole) (by simp)
      rw [if_pos recyclable, start]
      refine ⟨layout', rest.map (span block), extent', ?_, ⟨chain.links.2, ?_, ?_⟩, live'⟩
      · dsimp only
        rw [show result.1.load (Block.line block hole.1) = Block.line block hole.2 from limit]
        exact ok'
      · exact fun h member => chain.limits h (by simp [member])
      · exact fun h member => chain.room h (by simp [member])

/-- A collection. -/
theorem collect (view : ViewOk block s layout holes extent) {pointers : List Nat}
    {marked : Memory × Block} (inside : ∀ p ∈ pointers, p < Block.stop block)
    (run : pointers.foldlM (markInBlock block)
      (Collector.unmarkLines block lineCount 0 (s.memory, { s.header with marked := 0 })) =
        .ok marked) :
    ∃ layout' holes' extent',
      ViewOk block (.swept block marked.1 marked.2 s.live) layout' holes' extent' := by
  have start : BlockOk s.memory ({ s.header with marked := 0 } : Block).lineHeaders block layout _ extent :=
    view.ok
  obtain ⟨ok, only, clear, -⟩ := start.unmark rfl
  obtain ⟨ok', marks, only'⟩ := markInBlock_spec pointers inside ok (BlockOk.marksOk_of_unmarked clear) run
  refine swept ok' marks fun o member => ?_
  obtain ⟨walked, sized, whole⟩ := view.live o member
  refine ⟨walked, ?_, whole⟩
  rw [← sized]
  exact (only.trans only').other o.1 fun x hx => (view.ok.ne_markWord hx).1 o.1 walked

end ViewOk

/-- The step lemma. -/
theorem BlockStep.viewOk {block : Nat} {s s' : BlockView} {layout : Layout}
    {holes : List (Nat × Nat)} {extent : Nat → Nat} (step : BlockStep block s s')
    (view : ViewOk block s layout holes extent) :
    ∃ layout' holes' extent', ViewOk block s' layout' holes' extent' := by
  cases step with
  | allocate size atomic fits =>
    obtain ⟨layout', extent', next, -, -⟩ := view.allocate atomic fits
    exact ⟨layout', holes, extent', next⟩
  | nextHole some =>
    obtain ⟨holes', next⟩ := view.nextHole some
    exact ⟨layout, holes', extent, next⟩
  | write a value owned payload word => exact ⟨_, _, _, view.write value owned payload⟩
  | collect pointers marked inside marks => exact view.collect inside marks

/-- The run lemma. -/
theorem BlockRun.viewOk {block : Nat} {memory : Memory} {s : BlockView}
    (aligned : block % blockSize = 0) (run : BlockRun block (.fresh memory block) s) :
    ∃ layout holes extent, ViewOk block s layout holes extent := by
  induction run with
  | start => exact ⟨_, _, _, ViewOk.fresh memory aligned⟩
  | step _ step ih =>
    obtain ⟨layout, holes, extent, view⟩ := ih
    exact step.viewOk view

/-! ## What the line walks see -/

/-- The objects that the walks of all lines visit. -/
def walkedObjects (memory : Memory) (header : Block) (block : Nat) : List Nat :=
  (List.range lineCount).flatMap fun i =>
    if (header.lineHeaders i).containsObject then
      Collector.lineObjects memory (Block.line block i) lineSize (header.lineHeaders i).getOffset
    else []

section Walks
variable {memory : Memory} {header : Block} {block : Nat} {layout : Layout}
  {free : List (Nat × Nat)} {extent : Nat → Nat}

theorem BlockOk.walkedObjects_eq (ok : BlockOk memory header.lineHeaders block layout free extent) :
    walkedObjects memory header block = (List.range lineCount).flatMap layout.objects := by
  refine List.flatMap_congr fun i inRange => ?_
  have bound := List.mem_range.mp inRange
  split
  · next contains =>
    obtain ⟨walk, -⟩ := ok.walk i bound contains
    exact lineObjects_eq _ _ _ walk (fun o member => (ok.sized i o member).1) (by omega)
  · next empty =>
    exact (ok.absent i fun h => empty h.2).symm

/-- The walks visit no object twice. -/
theorem BlockOk.walkedObjects_nodup
    (ok : BlockOk memory header.lineHeaders block layout free extent) :
    (walkedObjects memory header block).Nodup := by
  rw [ok.walkedObjects_eq, List.nodup_flatMap]
  refine ⟨fun i inRange => ?_, ?_⟩
  · by_cases contains : (header.lineHeaders i).containsObject = true
    · obtain ⟨walk, -⟩ := ok.walk i (List.mem_range.mp inRange) contains
      exact Links.nodup (ok.grows i) walk.path
    · rw [ok.absent i fun h => contains h.2]
      exact List.nodup_nil
  · refine List.nodup_range.imp fun different => ?_
    intro object hi hj
    exact different (ok.line_unique hi hj)

end Walks

/-- Objects stay parsable: in every history of a block, each object allocated since the last
collection or marked by all of them is visited once by the line walks and found from every
pointer into its payload, and unmarking clears its mark. -/
theorem live_objects_stay_parsable {block : Nat} {memory : Memory} {s : BlockView}
    {object size : Nat} (aligned : block % blockSize = 0)
    (run : BlockRun block (.fresh memory block) s) (live : (object, size) ∈ s.live) :
    (walkedObjects s.memory s.header block).count object = 1 ∧
    (∀ pointer, object + sizeofObject ≤ pointer → pointer < object + size →
      ∃ i marked, Collector.findSmallObject s.memory s.header block pointer = .ok (some (i, object)) ∧
        markInBlock block (s.memory, s.header) pointer = .ok marked ∧
        Object.isMarked marked.1 object = true) ∧
    Object.isMarked (Collector.unmarkLines block lineCount 0
      (s.memory, { s.header with marked := 0 })).1 object = false := by
  obtain ⟨layout, holes, extent, view⟩ := run.viewOk aligned
  obtain ⟨⟨i, member⟩, sized, whole⟩ := view.live _ live
  dsimp only at member sized whole
  refine ⟨?_, fun pointer payload inside => ?_, ?_⟩
  · refine List.count_eq_one_of_mem view.ok.walkedObjects_nodup ?_
    rw [view.ok.walkedObjects_eq]
    exact List.mem_flatMap.mpr ⟨i, List.mem_range.mpr (view.ok.contains_of_mem member).1, member⟩
  · have found := view.ok.findSmallObject_eq _ member (whole.trans sized.symm)
      (Object.contains_iff.mpr ⟨payload, by rw [sized]; exact inside⟩)
    by_cases already : Object.isMarked s.memory object = true
    · refine ⟨i, (s.memory, s.header), found, ?_, already⟩
      rw [markInBlock, found, ok_bind]
      exact if_pos already
    · refine ⟨i, Collector.markSmallObject s.memory s.header block i object, found, ?_,
        Object.isMarked_mark s.memory object⟩
      rw [markInBlock, found, ok_bind]
      exact if_neg already
  · have start : BlockOk s.memory ({ s.header with marked := 0 } : Block).lineHeaders block layout
        ((s.cursor, s.limit) :: holes) extent := view.ok
    exact (start.unmark rfl).2.2.1 object ⟨i, member⟩

/-- An allocation that fits the current interval. -/
def BlockView.allocate (block size : Nat) (s : BlockView) : Result BlockView := do
  check (size % wordSize = 0 ∧ sizeofObject ≤ size ∧ size ≤ largeObjectSize ∧
    s.cursor + size ≤ s.limit) "the object fits"
  let header ← lineUpdate s.header block s.cursor
  .ok (s.bump header size 0)

theorem BlockView.fits_of_allocate {block size : Nat} {s s' : BlockView}
    (success : s.allocate block size = .ok s') :
    ∃ header, Fits block s header size ∧ s' = s.bump header size 0 := by
  obtain ⟨_, checked, rest⟩ := bind_eq_ok.mp success
  obtain ⟨word, least, most, room⟩ := of_decide_eq_true (check_eq_ok.mp checked)
  obtain ⟨header, updated, done⟩ := bind_eq_ok.mp rest
  exact ⟨header, ⟨word, least, most, room, updated⟩, (Except.ok.inj done).symm⟩

theorem BlockRun.allocated {block size : Nat} {start s s' : BlockView}
    (run : BlockRun block start s) (success : s.allocate block size = .ok s') :
    BlockRun block start s' := by
  obtain ⟨header, fits, rfl⟩ := BlockView.fits_of_allocate success
  exact run.step (.allocate size 0 fits)

/-- Three objects, a collection that drops the one in the middle, and one in the hole it leaves. -/
def refilledBlock : Result BlockView := do
  let s ← (BlockView.fresh ⟨fun _ => 0⟩ 0x8000).allocate 0x8000 32
  let s ← s.allocate 0x8000 784
  let s ← s.allocate 0x8000 32
  let marked ← [0x8110, 0x8448].foldlM (markInBlock 0x8000) (Collector.unmarkLines 0x8000 lineCount 0
    (s.memory, { s.header with marked := 0 }))
  (BlockView.swept 0x8000 marked.1 marked.2 s.live).allocate 0x8000 240

theorem refilledBlock_stays_parsable : ∃ s, refilledBlock = .ok s ∧
    BlockRun 0x8000 (.fresh ⟨fun _ => 0⟩ 0x8000) s ∧
    s.live = [(0x8300, 240), (0x8430, 32), (0x8100, 32)] ∧
    ∀ o ∈ s.live, (walkedObjects s.memory s.header 0x8000).count o.1 = 1 := by
  have checked : refilledBlock.map (fun s =>
      decide (s.live = [(0x8300, 240), (0x8430, 32), (0x8100, 32)])) = .ok true := by
    decide +kernel
  obtain ⟨s, ran, isLive⟩ := map_eq_ok checked
  have live := of_decide_eq_true isLive
  obtain ⟨s₁, first, rest⟩ := bind_eq_ok.mp ran
  obtain ⟨s₂, second, rest⟩ := bind_eq_ok.mp rest
  obtain ⟨s₃, third, rest⟩ := bind_eq_ok.mp rest
  obtain ⟨marked, marks, fourth⟩ := bind_eq_ok.mp rest
  have before : BlockRun 0x8000 (.fresh ⟨fun _ => 0⟩ 0x8000) s₃ :=
    ((BlockRun.start.allocated first).allocated second).allocated third
  have run := (before.step (.collect [0x8110, 0x8448] marked (by decide) marks)).allocated fourth
  exact ⟨s, ran, run, live, fun o member => (live_objects_stay_parsable (by decide) run member).1⟩

end ImmixGc.Guarantees
