import ImmixGc.Guarantees.BlockLayout
import ImmixGc.Source.LocalAllocator

/-!
# Bump allocation in one block

An allocation at the start of the first free interval records the object in its line,
clears the word behind it and writes its header. The object joins the walk of its line,
either as the first one or where the walk ended.
-/
namespace ImmixGc.Guarantees
open Source Foundation

/-- The memory after an allocation of `size` bytes at `object`, below `limit`. -/
def bumpMemory (memory : Memory) (object limit size atomic : Nat) : Memory :=
  Object.allocate (if object + size < limit then memory.store (object + size) 0 else memory)
    object size atomic

theorem load_bumpMemory (memory : Memory) (object limit size atomic a : Nat) (other : a ≠ object + 8) :
    (bumpMemory memory object limit size atomic).load a =
      if a = object then size
      else if a = object + size ∧ object + size < limit then 0 else memory.load a := by
  have store8 : ∀ (m : Memory) v, (m.store (object + 8) v).load a = m.load a :=
    fun m v => store_other _ _ _ _ other
  rw [bumpMemory, Object.allocate, store8]
  show (Memory.store _ object size).load a = _
  simp only [Memory.store, store_apply]
  by_cases here : a = object
  · rw [if_pos here, if_pos here]
  · rw [if_neg here, if_neg here]
    by_cases below : object + size < limit
    · simp only [if_pos below, store_apply]
      by_cases stop : a = object + size
      · rw [if_pos stop, if_pos ⟨stop, below⟩]
      · rw [if_neg stop, if_neg (fun h => stop h.1)]
    · rw [if_neg below, if_neg (fun h => below h.2)]

/-- The object joins the walk of line `i`, which then ends at `stop`. -/
def Layout.add (layout : Layout) (i object stop : Nat) : Layout :=
  ⟨fun j => if j = i then layout.objects i ++ [object] else layout.objects j,
    fun j => if j = i then stop else layout.finish j⟩

theorem Layout.walked_add {layout : Layout} {i object stop x : Nat} :
    (layout.add i object stop).Walked x ↔ layout.Walked x ∨ x = object := by
  constructor
  · rintro ⟨j, member⟩
    simp only [Layout.add] at member
    split at member
    · rcases List.mem_append.mp member with old | new
      · exact Or.inl ⟨i, old⟩
      · exact Or.inr (List.mem_singleton.mp new)
    · exact Or.inl ⟨j, member⟩
  · rintro (⟨j, member⟩ | rfl)
    · by_cases same : j = i
      · subst same
        exact ⟨j, by simp [Layout.add, member]⟩
      · exact ⟨j, by simp [Layout.add, same, member]⟩
    · exact ⟨i, by simp [Layout.add]⟩

/-- The header after `Line_update`. -/
def updatedHeader (header : Block) (block i object : Nat) : Block :=
  if (header.lineHeaders i).containsObject then header
  else header.setLineHeader i (LineHeader.setOffset (object - Block.line block i))

section Update
variable {header : Block} {block i object : Nat}

/-- `Line_update` never fails an assertion on an object inside the block. -/
theorem lineUpdate_eq (aligned : block % blockSize = 0) (bound : i < lineCount)
    (low : Block.line block i ≤ object) (high : object < Block.line block i + lineSize)
    (word : object % wordSize = 0) :
    lineUpdate header block object = .ok (updatedHeader header block i object) := by
  have inside : Block.contains block object = true := by
    rw [Block.contains, Bool.and_eq_true, decide_eq_true_iff, decide_eq_true_iff]
    simp only [Block.line, Block.start, Block.stop, lineSize, lineCount, blockSize] at *
    omega
  have index : Block.lineIndex block object = some i := by
    simp only [Block.line, lineSize] at low high
    rw [Block.lineIndex, if_neg (by omega)]
    simp only [lineSize]
    exact congrArg some (by omega)
  have offset : (object - Block.line block i) % wordSize = 0 ∧
      object - Block.line block i < lineSize := by
    simp only [Block.line, Block.start, lineSize, blockSize, wordSize] at *
    omega
  rw [lineUpdate, check_of_true inside, ok_bind, index, updatedHeader]
  dsimp only
  rw [check_of_true (decide_eq_true bound), ok_bind]
  by_cases has : (header.lineHeaders i).containsObject = true
  · rw [if_pos has, if_pos has]
  · rw [if_neg has, if_neg has, check_of_true (by simpa using offset.1), ok_bind,
      check_of_true (decide_eq_true offset.2), ok_bind]

theorem updatedHeader_other {j : Nat} (different : j ≠ i) :
    (updatedHeader header block i object).lineHeaders j = header.lineHeaders j := by
  rw [updatedHeader]
  split
  · rfl
  · exact store_other _ _ _ _ different

/-- The line that was updated. -/
theorem updatedHeader_same (word : object % wordSize = 0) (aligned : block % blockSize = 0)
    (low : Block.line block i ≤ object) (high : object < Block.line block i + lineSize) :
    ((updatedHeader header block i object).lineHeaders i).containsObject = true ∧
    ((updatedHeader header block i object).lineHeaders i).getOffset =
      if (header.lineHeaders i).containsObject then (header.lineHeaders i).getOffset
      else object - Block.line block i := by
  rw [updatedHeader]
  by_cases has : (header.lineHeaders i).containsObject = true
  · rw [if_pos has, if_pos has]
    exact ⟨has, rfl⟩
  · rw [if_neg has, if_neg has, Block.setLineHeader]
    dsimp only
    rw [store_same]
    obtain ⟨offset, contains, -⟩ := LineHeader.setOffset_spec (object - Block.line block i)
      (by simp only [Block.line, Block.start, lineSize, blockSize, wordSize] at *; omega)
      (by simp only [lineSize] at high; omega)
    exact ⟨contains, offset⟩

end Update

namespace BlockOk
variable {memory : Memory} {header : Block} {block : Nat} {layout : Layout}
  {rest : List (Nat × Nat)} {extent : Nat → Nat} {s e : Nat}

/-- The line of the first free interval. -/
theorem exists_line (ok : BlockOk memory header.lineHeaders block layout ((s, e) :: rest) extent)
    (some : s < e) : ∃ i < lineCount, Block.line block i ≤ s ∧ s < Block.line block i + lineSize := by
  obtain ⟨-, low, -, high, -⟩ := ok.freeOk.within (s, e) (by simp)
  refine ⟨(s - Block.start block) / lineSize, ?_⟩
  dsimp only at low high
  simp only [Block.line, Block.start, Block.stop, lineSize, lineCount, blockSize] at *
  omega

/-- Allocating at the start of the first free interval. -/
theorem bump (ok : BlockOk memory header.lineHeaders block layout ((s, e) :: rest) extent)
    {i size atomic : Nat} (bound : i < lineCount) (low : Block.line block i ≤ s)
    (high : s < Block.line block i + lineSize) (word : size % wordSize = 0)
    (least : sizeofObject ≤ size) (most : size ≤ largeObjectSize) (fits : s + size ≤ e) :
    BlockOk (bumpMemory memory s e size atomic) (updatedHeader header block i s).lineHeaders block
      (layout.add i s (s + size)) ((s + size, e) :: rest)
      (fun x => if x = s then size else extent x) := by
  have within := ok.freeOk.within (s, e) (by simp)
  dsimp only at within
  have aligned := ok.aligned
  have some : s < e := by
    simp only [sizeofObject] at least
    omega
  have others : ∀ h ∈ rest, e ≤ h.1 ∨ h.2 ≤ s := by
    intro h member
    have := List.rel_of_pairwise_cons ok.freeOk.apart member
    exact this
  -- a line that the interval starts in ends inside the interval
  have lineEnd : Block.line block i + lineSize ≤ e := by
    simp only [Block.line, Block.start, Block.stop, lineSize, lineCount, blockSize] at *
    omega
  have outside : ∀ x, layout.Walked x → x + extent x ≤ s ∨ e ≤ x :=
    fun x walked => ok.outside x walked (s, e) (by simp)
  have apart : ∀ x, layout.Walked x → x ≠ s := by
    rintro x walked rfl
    have := outside x walked
    have := (ok.extents x walked).1
    simp only [sizeofObject] at *
    omega
  -- the words that walks read are not written
  have load : ∀ a, a ≠ s + 8 → (bumpMemory memory s e size atomic).load a =
      if a = s then size else if a = s + size ∧ s + size < e then 0 else memory.load a :=
    fun a other => load_bumpMemory memory s e size atomic a other
  have sizes : ∀ x, layout.Walked x →
      Object.size (bumpMemory memory s e size atomic) x = Object.size memory x := by
    intro x walked
    have := outside x walked
    have := (ok.extents x walked).1
    have := apart x walked
    simp only [sizeofObject] at *
    rw [Object.size, load x (by omega), if_neg (by omega), if_neg (by omega)]
    rfl
  have sizeNew : Object.size (bumpMemory memory s e size atomic) s = size := by
    rw [Object.size, load s (by omega), if_pos rfl]
  have ends : ∀ j < lineCount, (header.lineHeaders j).containsObject = true → j ≠ i →
      layout.finish j < Block.line block j + lineSize →
      (layout.finish j < s ∨ e ≤ layout.finish j) ∧
      Object.size (bumpMemory memory s e size atomic) (layout.finish j) =
        Object.size memory (layout.finish j) := by
    intro j boundJ has different short
    obtain ⟨-, holes⟩ := ok.terminator j boundJ has short
    have := holes (s, e) (by simp)
    obtain ⟨walk, -⟩ := ok.walk j boundJ has
    have start := (Links.within (ok.grows j) walk.path).1
    have side : layout.finish j < s ∨ e ≤ layout.finish j := by
      simp only [Block.line, lineSize] at *
      omega
    refine ⟨side, ?_⟩
    simp only [sizeofObject] at *
    rw [Object.size, load _ (by omega), if_neg (by omega), if_neg (by omega)]
    rfl
  have headerSame : ((updatedHeader header block i s).lineHeaders i).containsObject = true ∧
      ((updatedHeader header block i s).lineHeaders i).getOffset =
        if (header.lineHeaders i).containsObject then (header.lineHeaders i).getOffset
        else s - Block.line block i := updatedHeader_same within.1 aligned low high
  have headerOther : ∀ j, j ≠ i →
      (updatedHeader header block i s).lineHeaders j = header.lineHeaders j :=
    fun j different => updatedHeader_other different
  have objectsOther : ∀ j, j ≠ i → (layout.add i s (s + size)).objects j = layout.objects j ∧
      (layout.add i s (s + size)).finish j = layout.finish j :=
    fun j different => ⟨if_neg different, if_neg different⟩
  have objectsSame : (layout.add i s (s + size)).objects i = layout.objects i ++ [s] ∧
      (layout.add i s (s + size)).finish i = s + size := ⟨if_pos rfl, if_pos rfl⟩
  -- where the walk of the line ended before
  have frontier : (header.lineHeaders i).containsObject = true → layout.finish i = s := by
    intro has
    have before : Block.line block i < s := by
      by_contra here
      rw [ok.freeLines i bound (s, e) (by simp) (by dsimp only; omega) (by dsimp only; omega)] at has
      cases has
    exact ok.frontier i bound (s, e) (by simp) has before high some
  refine ⟨aligned, ?_, ?_, ?_, ?_, ?_, ⟨?_, ?_⟩, ?_, ?_, ?_, ?_⟩
  · intro j missing
    by_cases same : j = i
    · subst same
      exact absurd ⟨bound, headerSame.1⟩ missing
    · rw [headerOther j same] at missing
      rw [(objectsOther j same).1]
      exact ok.absent j missing
  · intro j boundJ has
    by_cases same : j = i
    · subst same
      rw [objectsSame.1, objectsSame.2, headerSame.2]
      have ended : Block.line block j + lineSize ≤ s + size ∨
          Object.size (bumpMemory memory s e size atomic) (s + size) = 0 := by
        by_cases below : s + size < e
        · right
          have positive : 16 ≤ size := least
          rw [Object.size, load _ (by omega), if_neg (by omega), if_pos ⟨rfl, below⟩]
        · exact Or.inl (by omega)
      by_cases old : (header.lineHeaders j).containsObject = true
      · rw [if_pos old]
        obtain ⟨walk, -⟩ := ok.walk j bound old
        refine ⟨⟨?_, ?_, ended⟩, by simp⟩
        · rw [Links.append]
          refine ⟨s, ?_, rfl, ?_⟩
          · have path := walk.path
            rw [frontier old] at path
            refine path.congr fun x member => ?_
            rw [objectStop, objectStop, sizes x ⟨j, member⟩]
          · rw [Links.nil_iff, objectStop, sizeNew]
        · intro x member
          rcases List.mem_append.mp member with earlier | new
          · exact walk.inLine x earlier
          · rw [List.mem_singleton.mp new]
            exact high
      · rw [if_neg old, ok.absent j (fun h => old h.2), List.nil_append]
        refine ⟨⟨⟨by omega, ?_⟩, ?_, ended⟩, by simp⟩
        · rw [Links.nil_iff, objectStop, sizeNew]
        · intro x new
          rw [List.mem_singleton.mp new]
          exact high
    · rw [headerOther j same] at has ⊢
      rw [(objectsOther j same).1, (objectsOther j same).2]
      obtain ⟨walk, nonempty⟩ := ok.walk j boundJ has
      refine ⟨⟨walk.path.congr fun x member => ?_, walk.inLine, ?_⟩, nonempty⟩
      · rw [objectStop, objectStop, sizes x ⟨j, member⟩]
      · rcases Nat.lt_or_ge (layout.finish j) (Block.line block j + lineSize) with short | long
        · exact Or.inr ((ends j boundJ has same short).2.trans (walk.ends.resolve_left (by omega)))
        · exact Or.inl long
  · intro x walked
    rcases Layout.walked_add.mp walked with old | rfl
    · rw [objectStop, sizes x old]
      exact ok.shape x old
    · rw [objectStop, sizeNew]
      exact ⟨within.1, least, most, word, by omega⟩
  · intro x walked
    rcases Layout.walked_add.mp walked with old | rfl
    · rw [if_neg (apart x old), sizes x old]
      exact ok.extents x old
    · rw [if_pos rfl, sizeNew]
      exact ⟨least, Nat.le_refl _⟩
  · intro x y hx hy different
    rcases Layout.walked_add.mp hx with oldX | rfl <;> rcases Layout.walked_add.mp hy with oldY | rfl
    · rw [if_neg (apart x oldX), if_neg (apart y oldY)]
      exact ok.apart x y oldX oldY different
    · have := outside x oldX
      rw [if_neg different, if_pos rfl]
      omega
    · have := outside y oldY
      rw [if_neg (Ne.symm different), if_pos rfl]
      omega
    · exact absurd rfl different
  · intro hole member
    rcases List.mem_cons.mp member with rfl | old
    · dsimp only
      simp only [wordSize] at *
      omega
    · exact ok.freeOk.within hole (by simp [old])
  · refine List.Pairwise.cons ?_ (List.Pairwise.of_cons ok.freeOk.apart)
    intro h member
    have := others h member
    dsimp only
    omega
  · intro x walked hole member
    rcases List.mem_cons.mp member with rfl | old <;> rcases Layout.walked_add.mp walked with oldX | rfl
    · have := outside x oldX
      rw [if_neg (apart x oldX)]
      dsimp only
      omega
    · rw [if_pos rfl]
      exact Or.inl (Nat.le_refl _)
    · rw [if_neg (apart x oldX)]
      exact ok.outside x oldX hole (by simp [old])
    · have := others hole old
      rw [if_pos rfl]
      omega
  · intro j boundJ has short
    by_cases same : j = i
    · subst same
      rw [objectsSame.2] at short ⊢
      have below : s + size < e := by omega
      refine ⟨fun x walked => ?_, fun hole member => ?_⟩
      · rcases Layout.walked_add.mp walked with old | rfl
        · have := outside x old
          rw [if_neg (apart x old)]
          omega
        · rw [if_pos rfl]
          exact Or.inr (Nat.le_refl _)
      · rcases List.mem_cons.mp member with rfl | old
        · exact Or.inl (Nat.le_refl _)
        · have := others hole old
          omega
    · rw [headerOther j same] at has
      rw [(objectsOther j same).2] at short ⊢
      obtain ⟨objects, holes⟩ := ok.terminator j boundJ has short
      have side := (ends j boundJ has same short).1
      refine ⟨fun x walked => ?_, fun hole member => ?_⟩
      · rcases Layout.walked_add.mp walked with old | rfl
        · rw [if_neg (apart x old)]
          exact objects x old
        · rw [if_pos rfl]
          omega
      · rcases List.mem_cons.mp member with rfl | old
        · dsimp only
          omega
        · exact holes hole (by simp [old])
  · intro j boundJ hole member lowJ highJ
    have different : j ≠ i := by
      rintro rfl
      rcases List.mem_cons.mp member with rfl | old
      · dsimp only at lowJ
        simp only [sizeofObject] at least
        omega
      · have := others hole old
        have := ok.freeOk.within hole (by simp [old])
        simp only [Block.line, Block.start, lineSize, blockSize] at *
        omega
    rw [headerOther j different]
    rcases List.mem_cons.mp member with rfl | old
    · exact ok.freeLines j boundJ (s, e) (by simp) (by dsimp only at *; omega) highJ
    · exact ok.freeLines j boundJ hole (by simp [old]) lowJ highJ
  · intro j boundJ hole member has lowJ highJ open'
    by_cases same : j = i
    · subst same
      rw [objectsSame.2]
      rcases List.mem_cons.mp member with rfl | old
      · rfl
      · have := others hole old
        have := ok.freeOk.within hole (by simp [old])
        simp only [Block.line, Block.start, lineSize, blockSize] at *
        omega
    · rw [headerOther j same] at has
      rw [(objectsOther j same).2]
      rcases List.mem_cons.mp member with rfl | old
      · dsimp only at lowJ highJ open' ⊢
        have beyond : s ≤ Block.line block j := by
          simp only [Block.line, lineSize] at *
          omega
        rw [ok.freeLines j boundJ (s, e) (by simp) beyond (by dsimp only; omega)] at has
        cases has
      · exact ok.frontier j boundJ hole (by simp [old]) has lowJ highJ open'

end BlockOk
end ImmixGc.Guarantees
