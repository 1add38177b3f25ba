import ImmixGc.Guarantees.BlockLayout
import ImmixGc.Source.Collector

/-!
# Finding the object a pointer points into

`Collector_findAndMarkSmallObject` searches the lines backwards for one with an object and
walks it. In a block whose objects do not overlap this finds exactly the object that
contains the pointer.
-/
namespace ImmixGc.Guarantees
open Source Foundation

theorem LineWalk.tail {memory : Memory} {line first object finish : Nat} {objects : List Nat}
    (walk : LineWalk memory line first (object :: objects) finish) :
    first = object ∧ object < line + lineSize ∧
      LineWalk memory line (objectStop memory object) objects finish :=
  ⟨walk.path.1, walk.inLine object (by simp), walk.path.2,
    fun o member => walk.inLine o (by simp [member]), walk.ends⟩

/-- The walk of the source visits the objects of the line. -/
theorem lineObjects_eq {memory : Memory} {line finish : Nat} (objects : List Nat) (fuel offset : Nat)
    (walk : LineWalk memory line (line + offset) objects finish)
    (sized : ∀ object ∈ objects, 0 < Object.size memory object) (enough : lineSize ≤ fuel + offset) :
    Collector.lineObjects memory line fuel offset = objects := by
  induction fuel generalizing offset objects with
  | zero =>
    cases objects with
    | nil => rfl
    | cons object objects =>
      obtain ⟨start, bound, -⟩ := walk.tail
      omega
  | succ fuel ih =>
    rw [Collector.lineObjects]
    cases objects with
    | nil =>
      have start : line + offset = finish := Links.nil_iff.mp walk.path
      by_cases inside : offset < lineSize
      · have zero : Object.size memory (line + offset) = 0 := by
          rw [start]
          exact walk.ends.resolve_left (by omega)
        rw [if_pos inside, if_pos zero]
      · rw [if_neg inside]
    | cons object objects =>
      obtain ⟨start, bound, rest⟩ := walk.tail
      have positive := sized object (by simp)
      have inside : offset < lineSize := by omega
      rw [start, if_pos inside, if_neg (by omega)]
      refine congrArg _ (ih objects _ ?_ (fun o member => sized o (by simp [member])) (by omega))
      rw [← Nat.add_assoc, start]
      exact rest

section Find
variable {memory : Memory} {pointer line finish : Nat}

/-- The walk of `findAndMarkSmallObject` stops at the object that contains the pointer, when
those before it do not. -/
theorem findInLine_eq (front rest : List Nat) (object fuel offset : Nat)
    (walk : LineWalk memory line (line + offset) (front ++ object :: rest) finish)
    (sized : ∀ o ∈ front ++ object :: rest,
      0 < Object.size memory o ∧ Object.size memory o ≤ largeObjectSize)
    (before : ∀ o ∈ front, Object.contains memory o pointer = false)
    (found : Object.contains memory object pointer = true) (enough : lineSize ≤ fuel + offset) :
    Collector.findInLine memory pointer line fuel offset = .ok (some object) := by
  induction fuel generalizing offset front with
  | zero =>
    cases front with
    | nil =>
      obtain ⟨start, bound, -⟩ := walk.tail
      omega
    | cons o front =>
      obtain ⟨start, bound, -⟩ := walk.tail
      omega
  | succ fuel ih =>
    rw [Collector.findInLine]
    cases front with
    | nil =>
      obtain ⟨start, bound, -⟩ := walk.tail
      obtain ⟨positive, small⟩ := sized object (by simp)
      rw [start, if_pos (by omega), if_neg (by omega), if_neg (by omega), if_pos found]
    | cons o front =>
      obtain ⟨start, bound, rest'⟩ := walk.tail
      obtain ⟨positive, small⟩ := sized o (by simp)
      have miss := before o (by simp)
      rw [start, if_pos (by omega), if_neg (by omega), if_neg (by omega), if_neg (by simp [miss])]
      refine ih front _ ?_ (fun x member => sized x (by simp [member]))
        (fun x member => before x (by simp [member])) (by omega)
      rw [← Nat.add_assoc, start]
      exact rest'

/-- The walk never aborts, and what it finds is an object of the line. -/
theorem findInLine_total (pointer : Nat) (objects : List Nat) (fuel offset : Nat)
    (walk : LineWalk memory line (line + offset) objects finish)
    (sized : ∀ o ∈ objects, 0 < Object.size memory o ∧ Object.size memory o ≤ largeObjectSize)
    (enough : lineSize ≤ fuel + offset) :
    Collector.findInLine memory pointer line fuel offset = .ok none ∨
    ∃ object ∈ objects, Object.contains memory object pointer = true ∧
      Collector.findInLine memory pointer line fuel offset = .ok (some object) := by
  induction fuel generalizing offset objects with
  | zero => exact Or.inl rfl
  | succ fuel ih =>
    rw [Collector.findInLine]
    cases objects with
    | nil =>
      have start : line + offset = finish := Links.nil_iff.mp walk.path
      left
      by_cases inside : offset < lineSize
      · have zero : Object.size memory (line + offset) = 0 := by
          rw [start]
          exact walk.ends.resolve_left (by omega)
        rw [if_pos inside, if_pos zero]
      · rw [if_neg inside]
    | cons o objects =>
      obtain ⟨start, bound, rest⟩ := walk.tail
      obtain ⟨positive, small⟩ := sized o (by simp)
      rw [start, if_pos (by omega), if_neg (by omega), if_neg (by omega)]
      by_cases found : Object.contains memory o pointer = true
      · rw [if_pos found]
        exact Or.inr ⟨o, by simp, found, rfl⟩
      · rw [if_neg found]
        rcases ih objects (offset + Object.size memory o) (by rw [← Nat.add_assoc, start]; exact rest)
          (fun x member => sized x (by simp [member])) (by omega) with none | ⟨x, member, rest⟩
        · exact Or.inl none
        · exact Or.inr ⟨x, by simp [member], rest⟩

end Find

/-- The backward search ends at `i` when the lines after it hold no object. -/
theorem searchLines_eq {headers : Nat → LineHeader} {i : Nat}
    (contains : (headers i).containsObject = true) (n : Nat)
    (later : ∀ j, i < j → j ≤ i + n → (headers j).containsObject = false) :
    Collector.searchLines headers (i + n) = some i := by
  induction n with
  | zero =>
    cases i with
    | zero => rw [Nat.add_zero, Collector.searchLines, if_pos contains]
    | succ i => rw [Nat.add_zero, Collector.searchLines, if_pos contains]
  | succ n ih =>
    have absent := later (i + n + 1) (by omega) (by omega)
    rw [← Nat.add_assoc, Collector.searchLines, if_neg (by simp [absent])]
    exact ih fun j low high => later j low (by omega)

theorem searchLines_some {headers : Nat → LineHeader} {n i : Nat}
    (found : Collector.searchLines headers n = some i) :
    i ≤ n ∧ (headers i).containsObject = true := by
  induction n with
  | zero =>
    rw [Collector.searchLines] at found
    split at found
    · next contains =>
      obtain rfl := Option.some.inj found
      exact ⟨Nat.le_refl _, contains⟩
    · cases found
  | succ n ih =>
    rw [Collector.searchLines] at found
    split at found
    · next contains =>
      obtain rfl := Option.some.inj found
      exact ⟨Nat.le_refl _, contains⟩
    · obtain ⟨le, contains⟩ := ih found
      exact ⟨by omega, contains⟩

/-- The search starts in a line of the block. -/
theorem searchStart_lt {header : Block} {block pointer start : Nat}
    (inside : pointer < Block.stop block)
    (started : Collector.searchStart header block pointer = some start) : start < lineCount := by
  rw [Collector.searchStart, Block.lineIndex] at started
  split at started
  · cases started
  · next index atLine =>
    split at atLine
    · cases atLine
    · obtain rfl := Option.some.inj atLine
      split at started
      · split at started
        · cases started
        · obtain rfl := Option.some.inj started
          simp only [Block.start, Block.stop, lineCount, lineSize, blockSize] at *
          omega
      · obtain rfl := Option.some.inj started
        simp only [Block.start, Block.stop, lineCount, lineSize, blockSize] at *
        omega

namespace BlockOk
variable {memory : Memory} {header : Block} {block : Nat}
  {layout : Layout} {free : List (Nat × Nat)} {extent : Nat → Nat}

theorem sized (ok : BlockOk memory header.lineHeaders block layout free extent) (i : Nat) :
    ∀ o ∈ layout.objects i, 0 < Object.size memory o ∧ Object.size memory o ≤ largeObjectSize := by
  intro o member
  have := ok.shape o ⟨i, member⟩
  simp only [sizeofObject] at this
  omega

theorem lineIndex_eq {pointer i : Nat} (low : Block.line block i ≤ pointer)
    (high : pointer < Block.line block i + lineSize) : Block.lineIndex block pointer = some i := by
  simp only [Block.line, lineSize] at low high
  rw [Block.lineIndex, if_neg (by omega)]
  simp only [lineSize]
  exact congrArg some (by omega)

/-- An object whose bytes are all its own is found from every pointer into its payload. -/
theorem findSmallObject_eq (ok : BlockOk memory header.lineHeaders block layout free extent)
    {i object : Nat} (pointer : Nat) (member : object ∈ layout.objects i)
    (whole : extent object = Object.size memory object)
    (contains : Object.contains memory object pointer = true) :
    Collector.findSmallObject memory header block pointer = .ok (some (i, object)) := by
  obtain ⟨bound, has⟩ := ok.contains_of_mem member
  have place := ok.in_line member
  have shape := ok.shape object ⟨i, member⟩
  have stop := shape.2.2.2.2
  obtain ⟨payload, inside⟩ := Object.contains_iff.mp contains
  -- the line of the pointer
  obtain ⟨n, line⟩ : ∃ n, Block.line block (i + n) ≤ pointer ∧
      pointer < Block.line block (i + n) + lineSize := by
    refine ⟨(pointer - Block.line block i) / lineSize, ?_⟩
    simp only [Block.line, Block.start, lineSize, sizeofObject] at *
    omega
  -- a line after the first whose first object is not behind the pointer holds no object
  have clear : ∀ j, i < j → j ≤ i + n → (header.lineHeaders j).containsObject = true →
      pointer < Block.line block j + (header.lineHeaders j).getOffset := by
    intro j after upto hasJ
    have boundJ : j < lineCount := by
      simp only [Block.line, Block.start, Block.stop, objectStop, lineCount, lineSize, blockSize] at *
      omega
    obtain ⟨rest, first⟩ := ok.exists_first boundJ hasJ
    have memberJ : Block.line block j + (header.lineHeaders j).getOffset ∈ layout.objects j := by
      rw [first]
      simp
    have different : object ≠ Block.line block j + (header.lineHeaders j).getOffset := by
      intro same
      have := ok.line_unique member (by rw [same]; exact memberJ)
      omega
    have extents := ok.extents _ ⟨j, memberJ⟩
    rcases ok.apart _ _ ⟨i, member⟩ ⟨j, memberJ⟩ different with before | behind
    · rw [whole] at before
      omega
    · simp only [Block.line, Block.start, lineSize, sizeofObject] at *
      omega
  have searched : (Collector.searchStart header block pointer).bind
      (Collector.searchLines header.lineHeaders) = some i := by
    rw [Collector.searchStart, lineIndex_eq line.1 line.2]
    dsimp only
    by_cases back : (header.lineHeaders (i + n)).containsObject = true ∧
        pointer < Block.line block (i + n) + (header.lineHeaders (i + n)).getOffset
    · -- the pointer's line starts with a later object
      have later : n ≠ 0 := by
        rintro rfl
        simp only [Nat.add_zero, sizeofObject] at *
        omega
      rw [if_pos back, if_neg (by omega), Option.bind_some]
      rw [show i + n - 1 = i + (n - 1) by omega]
      refine searchLines_eq has (n - 1) fun j low high => ?_
      by_contra hasJ
      have ahead := clear j low (by omega) (by simpa using hasJ)
      have offset := (header.lineHeaders j).getOffset_lt
      simp only [Block.line, Block.start, lineSize] at *
      omega
    · rw [if_neg back, Option.bind_some]
      refine searchLines_eq has n fun j low high => ?_
      by_contra hasJ
      have hasJ : (header.lineHeaders j).containsObject = true := by simpa using hasJ
      have ahead := clear j low high hasJ
      have offset := (header.lineHeaders j).getOffset_lt
      have same : j = i + n := by
        simp only [Block.line, Block.start, lineSize] at *
        omega
      rw [same] at ahead hasJ
      exact back ⟨hasJ, ahead⟩
  obtain ⟨front, rest, split⟩ := List.append_of_mem member
  obtain ⟨walk, -⟩ := ok.walk i bound has
  have sized := ok.sized i
  rw [split] at walk sized
  have before : ∀ o ∈ front, Object.contains memory o pointer = false := by
    intro o hfront
    have ascending := Links.ascending (by rw [← split]; exact ok.grows i) walk.path
    rw [List.pairwise_append] at ascending
    have passed := ascending.2.2 o hfront object (by simp)
    by_contra hit
    have := Object.contains_iff.mp (by simpa using hit)
    simp only [objectStop, sizeofObject] at *
    omega
  have found := findInLine_eq front rest object lineSize (header.lineHeaders i).getOffset walk sized
    before contains (by omega)
  rw [Collector.findSmallObject, searched]
  simp only [found, ok_bind, Option.map_some]

/-- The search never aborts, and finds only objects of the block that contain the pointer. -/
theorem findSmallObject_total (ok : BlockOk memory header.lineHeaders block layout free extent)
    (pointer : Nat) (inside : pointer < Block.stop block) :
    Collector.findSmallObject memory header block pointer = .ok none ∨
    ∃ i, ∃ object ∈ layout.objects i, Object.contains memory object pointer = true ∧
      Collector.findSmallObject memory header block pointer = .ok (some (i, object)) := by
  rw [Collector.findSmallObject]
  cases search : (Collector.searchStart header block pointer).bind
      (Collector.searchLines header.lineHeaders) with
  | none => exact Or.inl rfl
  | some i =>
    obtain ⟨start, started, searched⟩ := Option.bind_eq_some_iff.mp search
    obtain ⟨le, has⟩ := searchLines_some searched
    have bound : i < lineCount := by
      have := searchStart_lt inside started
      omega
    obtain ⟨walk, -⟩ := ok.walk i bound has
    rcases findInLine_total pointer _ lineSize _ walk (ok.sized i) (by omega) with
      none | ⟨object, member, contains, found⟩
    · exact Or.inl (by simp only [none, ok_bind, Option.map_none])
    · exact Or.inr ⟨i, object, member, contains, by simp only [found, ok_bind, Option.map_some]⟩

end BlockOk
end ImmixGc.Guarantees
