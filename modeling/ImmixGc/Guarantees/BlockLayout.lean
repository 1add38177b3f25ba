import ImmixGc.Foundation.Linked
import ImmixGc.Source.Block

/-!
# The objects of one block

A line that contains an object is read by walking: from its recorded offset, object after
object, until the end of the line or an object of size 0. `BlockOk` describes a block whose
lines can be walked: `layout` gives the objects of each line and where its walk ends, `free`
the intervals that objects may still be put in, and `extent` how many bytes of each object
are nobody else's. An object that died keeps at least its header; a live one all its bytes.
-/
namespace ImmixGc.Guarantees
open Source Foundation

def objectStop (memory : Memory) (object : Nat) : Nat := object + Object.size memory object

/-- The walk of the line at `line`, whose first object is at `first`. -/
structure LineWalk (memory : Memory) (line first : Nat) (objects : List Nat) (finish : Nat) :
    Prop where
  path : Links (objectStop memory) first objects finish
  inLine : ∀ object ∈ objects, object < line + lineSize
  ends : line + lineSize ≤ finish ∨ Object.size memory finish = 0

/-- The objects of each line, and where its walk ends. -/
structure Layout where
  objects : Nat → List Nat
  finish : Nat → Nat

def Layout.empty : Layout := ⟨fun _ => [], fun _ => 0⟩

def Layout.Walked (layout : Layout) (object : Nat) : Prop := ∃ i, object ∈ layout.objects i

/-- The intervals of a block that objects may still be put in. -/
structure FreeOk (block : Nat) (free : List (Nat × Nat)) : Prop where
  within : ∀ hole ∈ free, hole.1 % wordSize = 0 ∧ Block.start block ≤ hole.1 ∧ hole.1 ≤ hole.2 ∧
    hole.2 ≤ Block.stop block ∧ (hole.2 - block) % lineSize = 0
  apart : free.Pairwise fun x y => x.2 ≤ y.1 ∨ y.2 ≤ x.1

structure BlockOk (memory : Memory) (headers : Nat → LineHeader) (block : Nat) (layout : Layout)
    (free : List (Nat × Nat)) (extent : Nat → Nat) : Prop where
  aligned : block % blockSize = 0
  absent : ∀ i, ¬ (i < lineCount ∧ (headers i).containsObject = true) → layout.objects i = []
  walk : ∀ i < lineCount, (headers i).containsObject = true →
    LineWalk memory (Block.line block i) (Block.line block i + (headers i).getOffset)
      (layout.objects i) (layout.finish i) ∧ layout.objects i ≠ []
  shape : ∀ object, layout.Walked object → object % wordSize = 0 ∧
    sizeofObject ≤ Object.size memory object ∧ Object.size memory object ≤ largeObjectSize ∧
    Object.size memory object % wordSize = 0 ∧ objectStop memory object ≤ Block.stop block
  extents : ∀ object, layout.Walked object →
    sizeofObject ≤ extent object ∧ extent object ≤ Object.size memory object
  apart : ∀ x y, layout.Walked x → layout.Walked y → x ≠ y →
    x + extent x ≤ y ∨ y + extent y ≤ x
  freeOk : FreeOk block free
  outside : ∀ object, layout.Walked object → ∀ hole ∈ free,
    object + extent object ≤ hole.1 ∨ hole.2 ≤ object
  /-- The word that ends a walk before the end of the line belongs to nobody. -/
  terminator : ∀ i < lineCount, (headers i).containsObject = true →
    layout.finish i < Block.line block i + lineSize →
    (∀ object, layout.Walked object →
      layout.finish i < object ∨ object + extent object ≤ layout.finish i) ∧
    ∀ hole ∈ free, layout.finish i ≤ hole.1 ∨ hole.2 ≤ layout.finish i
  freeLines : ∀ i < lineCount, ∀ hole ∈ free, hole.1 ≤ Block.line block i →
    Block.line block i < hole.2 → (headers i).containsObject = false
  /-- Objects continue where the walk of the frontier's line ends. -/
  frontier : ∀ i < lineCount, ∀ hole ∈ free, (headers i).containsObject = true →
    Block.line block i < hole.1 → hole.1 < Block.line block i + lineSize → hole.1 < hole.2 →
    layout.finish i = hole.1

namespace BlockOk
variable {memory memory' : Memory} {headers headers' : Nat → LineHeader} {block : Nat}
  {layout : Layout} {free : List (Nat × Nat)} {extent : Nat → Nat}

theorem contains_of_mem (ok : BlockOk memory headers block layout free extent) {i object : Nat}
    (member : object ∈ layout.objects i) : i < lineCount ∧ (headers i).containsObject = true := by
  by_contra missing
  rw [ok.absent i missing] at member
  cases member

/-- Every walk goes forward. -/
theorem grows (ok : BlockOk memory headers block layout free extent) (i : Nat) :
    ∀ object ∈ layout.objects i, object < objectStop memory object := by
  intro object member
  have := (ok.shape object ⟨i, member⟩).2.1
  simp only [objectStop, sizeofObject] at *
  omega

/-- The objects of a line start in it. -/
theorem in_line (ok : BlockOk memory headers block layout free extent) {i object : Nat}
    (member : object ∈ layout.objects i) :
    Block.line block i + (headers i).getOffset ≤ object ∧ object < Block.line block i + lineSize := by
  obtain ⟨bound, contains⟩ := ok.contains_of_mem member
  obtain ⟨walk, -⟩ := ok.walk i bound contains
  exact ⟨((Links.within (ok.grows i) walk.path).2 object member).1, walk.inLine object member⟩

theorem line_unique (ok : BlockOk memory headers block layout free extent) {i j object : Nat}
    (hi : object ∈ layout.objects i) (hj : object ∈ layout.objects j) : i = j := by
  have := ok.in_line hi
  have := ok.in_line hj
  simp only [Block.line, Block.start, lineSize] at *
  omega

/-- The first object of a line. -/
theorem exists_first (ok : BlockOk memory headers block layout free extent) {i : Nat}
    (bound : i < lineCount) (contains : (headers i).containsObject = true) :
    ∃ rest, layout.objects i = (Block.line block i + (headers i).getOffset) :: rest := by
  obtain ⟨walk, some⟩ := ok.walk i bound contains
  cases h : layout.objects i with
  | nil => exact absurd h some
  | cons first rest =>
    have := walk.path
    rw [h] at this
    exact ⟨rest, by rw [this.1]⟩

theorem start_le (ok : BlockOk memory headers block layout free extent) {object : Nat}
    (walked : layout.Walked object) : Block.start block ≤ object := by
  obtain ⟨i, member⟩ := walked
  have := (ok.in_line member).1
  simp only [Block.line] at *
  omega

/-- Only the words that walks read matter: sizes of objects, and the words that end walks. -/
theorem congr (ok : BlockOk memory headers block layout free extent)
    (sizes : ∀ object, layout.Walked object → Object.size memory' object = Object.size memory object)
    (ends : ∀ i < lineCount, (headers i).containsObject = true →
      layout.finish i < Block.line block i + lineSize →
      Object.size memory' (layout.finish i) = Object.size memory (layout.finish i))
    (contains : ∀ i, (headers' i).containsObject = (headers i).containsObject)
    (offsets : ∀ i < lineCount, (headers i).containsObject = true →
      (headers' i).getOffset = (headers i).getOffset) :
    BlockOk memory' headers' block layout free extent := by
  refine ⟨ok.aligned, ?_, ?_, ?_, ?_, ok.apart, ok.freeOk, ok.outside, ?_, ?_, ?_⟩
  · intro i missing
    exact ok.absent i (by rw [← contains]; exact missing)
  · intro i bound has
    rw [contains] at has
    obtain ⟨walk, some⟩ := ok.walk i bound has
    rw [offsets i bound has]
    refine ⟨⟨walk.path.congr fun object member => ?_, walk.inLine, ?_⟩, some⟩
    · rw [objectStop, objectStop, sizes object ⟨i, member⟩]
    · rcases Nat.lt_or_ge (layout.finish i) (Block.line block i + lineSize) with short | long
      · exact Or.inr ((ends i bound has short).trans (walk.ends.resolve_left (by omega)))
      · exact Or.inl long
  · intro object walked
    rw [objectStop, sizes object walked]
    exact ok.shape object walked
  · intro object walked
    rw [sizes object walked]
    exact ok.extents object walked
  · intro i bound has short
    exact ok.terminator i bound (by rw [← contains]; exact has) short
  · intro i bound hole member low high
    rw [contains]
    exact ok.freeLines i bound hole member low high
  · intro i bound hole member has low high some
    exact ok.frontier i bound hole member (by rw [← contains]; exact has) low high some

theorem congr_extent (ok : BlockOk memory headers block layout free extent) {extent' : Nat → Nat}
    (same : ∀ object, layout.Walked object → extent' object = extent object) :
    BlockOk memory headers block layout free extent' := by
  refine ⟨ok.aligned, ok.absent, ok.walk, ok.shape, ?_, ?_, ok.freeOk, ?_, ?_, ok.freeLines,
    ok.frontier⟩
  · intro object walked
    rw [same object walked]
    exact ok.extents object walked
  · intro x y hx hy different
    rw [same x hx, same y hy]
    exact ok.apart x y hx hy different
  · intro object walked
    rw [same object walked]
    exact ok.outside object walked
  · intro i bound has short
    obtain ⟨objects, holes⟩ := ok.terminator i bound has short
    refine ⟨fun object walked => ?_, holes⟩
    rw [same object walked]
    exact objects object walked

/-- Giving up intervals. -/
theorem subset (ok : BlockOk memory headers block layout free extent) {free' : List (Nat × Nat)}
    (sublist : free'.Sublist free) : BlockOk memory headers block layout free' extent := by
  have member : ∀ hole ∈ free', hole ∈ free := fun hole h => sublist.subset h
  refine ⟨ok.aligned, ok.absent, ok.walk, ok.shape, ok.extents, ok.apart, ⟨?_, ?_⟩, ?_, ?_, ?_, ?_⟩
  · exact fun hole h => ok.freeOk.within hole (member hole h)
  · exact ok.freeOk.apart.sublist sublist
  · exact fun object walked hole h => ok.outside object walked hole (member hole h)
  · intro i bound has short
    obtain ⟨objects, holes⟩ := ok.terminator i bound has short
    exact ⟨objects, fun hole h => holes hole (member hole h)⟩
  · exact fun i bound hole h => ok.freeLines i bound hole (member hole h)
  · exact fun i bound hole h => ok.frontier i bound hole (member hole h)

/-- A block without objects. -/
theorem free_block (memory : Memory) (aligned : block % blockSize = 0) (extent : Nat → Nat) :
    BlockOk memory (fun _ => LineHeader.clear) block Layout.empty
      [(Block.start block, Block.stop block)] extent := by
  have nothing : ∀ object, ¬ Layout.empty.Walked object := by
    rintro object ⟨i, member⟩
    cases member
  refine ⟨aligned, fun _ _ => rfl, ?_, ?_, ?_, ?_, ⟨?_, by simp⟩, ?_, ?_, ?_, ?_⟩
  · intro i _ contains
    simp at contains
  · intro object walked
    exact absurd walked (nothing object)
  · intro object walked
    exact absurd walked (nothing object)
  · intro x y walked
    exact absurd walked (nothing x)
  · intro hole member
    rw [List.mem_singleton] at member
    subst member
    simp only [Block.start, Block.stop, blockSize, lineSize, wordSize] at *
    omega
  · intro object walked
    exact absurd walked (nothing object)
  · intro i _ contains
    simp at contains
  · intro i _ hole _ _ _
    simp
  · intro i _ hole _ contains
    simp at contains

end BlockOk
end ImmixGc.Guarantees
