import ImmixGc.Guarantees.BlockLists
import ImmixGc.Guarantees.BlockMarking

/-!
# Recycling one block

The line loop of `GC_GlobalAllocator_recycleBlocks` opens a hole at the second of two
unmarked lines and closes it at the next marked line or at the end of the block. `Scan`
is its invariant; `Recycled` says what it leaves: a chain of holes, written into the holes
themselves, that no marked line and no line behind one belongs to.
-/
namespace ImmixGc.Guarantees
open Source Foundation

/-- The holes of a block, linked through their records in memory. -/
structure HoleChain (memory : Memory) (first : Nat) (holes : List (Nat × Nat)) : Prop where
  links : Links (fun hole => memory.load (hole + 8)) first (holes.map Prod.fst) null
  limits : ∀ hole ∈ holes, memory.load hole.1 = hole.2
  room : ∀ hole ∈ holes, hole.1 + 16 ≤ hole.2

/-- Lines `[j, k)` may be a hole: they and the line before them are unmarked. -/
structure HoleLines (headers : Nat → LineHeader) (j k : Nat) : Prop where
  start : 1 ≤ j
  some : j < k
  unmarked : ∀ i, j ≤ i → i < k → (headers i).isMarked = false ∧ (headers (i - 1)).isMarked = false

/-- The addresses of a run of lines. -/
def span (block : Nat) (lines : Nat × Nat) : Nat × Nat :=
  (Block.line block lines.1, Block.line block lines.2)

theorem line_ne (block j k : Nat) : Block.line block j ≠ Block.line block k + 8 := by
  simp only [Block.line, lineSize]
  omega

theorem line_injective {block j k : Nat} (same : Block.line block j = Block.line block k) :
    j = k := by
  simp only [Block.line, lineSize] at same
  omega

theorem line_pos (block j : Nat) : Block.line block j ≠ null := by
  simp only [Block.line, Block.start, lineSize, null]
  omega

/-- The invariant of the line loop after `index` lines: `closed` holes have their limits,
`opened` is the hole that is still growing. -/
structure Scan (memory : Memory) (headers : Nat → LineHeader) (block index : Nat)
    (closed : List (Nat × Nat)) (opened : Option Nat) (s : LineScan) : Prop where
  cleared : ∀ i, s.lineHeaders i =
    if i < index ∧ (headers i).isMarked = false then LineHeader.clear else headers i
  closedOk : ∀ hole ∈ closed, HoleLines headers hole.1 hole.2 ∧ hole.2 ≤ index
  openedOk : ∀ j, opened = some j → HoleLines headers j index
  ordered : closed.Pairwise fun x y => x.2 ≤ y.1
  openedLast : ∀ j, opened = some j → ∀ hole ∈ closed, hole.2 ≤ j
  hole : s.hole = (opened.map (Block.line block)).getD null
  previous : opened = none →
    s.previousHole = (closed.getLast?.map fun hole => Block.line block hole.1).getD null
  first : s.firstFreeLineIndex =
    (((closed.map Prod.fst ++ opened.toList).head?).map Int.ofNat).getD invalidLineIndex
  links : Links (fun hole => s.memory.load (hole + 8))
    ((((closed.map Prod.fst ++ opened.toList).head?).map (Block.line block)).getD null)
    ((closed.map Prod.fst ++ opened.toList).map (Block.line block)) null
  limits : ∀ hole ∈ closed, s.memory.load (Block.line block hole.1) = Block.line block hole.2
  openedLimit : ∀ j, opened = some j → s.memory.load (Block.line block j) = null
  frame : ∀ a, (∀ j ∈ closed.map Prod.fst ++ opened.toList,
    a ≠ Block.line block j ∧ a ≠ Block.line block j + 8) → s.memory.load a = memory.load a
  closedMaximal : ∀ hole ∈ closed, (hole.1 = 1 ∨ (headers (hole.1 - 2)).isMarked = true) ∧
    (hole.2 = lineCount ∨ (headers hole.2).isMarked = true)
  openedMaximal : ∀ j, opened = some j → j = 1 ∨ (headers (j - 2)).isMarked = true
  /-- Outside a hole the line before is marked, or the next iteration cannot open one. -/
  idle : opened = none → index = 0 ∨ (headers (index - 1)).isMarked = true ∨ index = lineCount ∨
    (headers index).isMarked = true
  complete : ∀ i, 1 ≤ i → i < index → (headers i).isMarked = false →
    (headers (i - 1)).isMarked = false →
    (∃ hole ∈ closed, hole.1 ≤ i ∧ i < hole.2) ∨ ∃ j, opened = some j ∧ j ≤ i

namespace Scan
variable {memory : Memory} {headers : Nat → LineHeader} {block index : Nat}
  {closed : List (Nat × Nat)} {opened : Option Nat} {s : LineScan}

theorem start (memory : Memory) (headers : Nat → LineHeader) (block : Nat) :
    Scan memory headers block 0 [] none ⟨memory, headers, invalidLineIndex, null, null⟩ := by
  refine ⟨fun i => by simp, by simp, by simp, by simp, by simp, rfl, fun _ => rfl, rfl, rfl, by simp,
    by simp, fun _ _ => rfl, by simp, by simp, fun _ => Or.inl rfl, fun i _ less => by omega⟩

/-- A marked line outside a hole. -/
theorem skip (scan : Scan memory headers block index closed none s)
    (marked : (headers index).isMarked = true) :
    Scan memory headers block (index + 1) closed none s := by
  refine ⟨fun i => ?_, fun hole member => ?_, by simp, scan.ordered, by simp, scan.hole, scan.previous,
    scan.first, scan.links, scan.limits, by simp, scan.frame, scan.closedMaximal, by simp,
    fun _ => Or.inr (Or.inl marked), fun i start less unmarked previous => ?_⟩
  · rw [scan.cleared]
    by_cases same : i = index
    · subst same
      simp [marked]
    · simp only [show i < index + 1 ↔ i < index by omega]
  · obtain ⟨lines, le⟩ := scan.closedOk hole member
    exact ⟨lines, by omega⟩
  · rcases Nat.lt_succ_iff_lt_or_eq.mp less with before | rfl
    · exact scan.complete i start before unmarked previous
    · rw [marked] at unmarked
      cases unmarked

/-- Clearing the header of an unmarked line. -/
theorem clear_headers (scan : Scan memory headers block index closed opened s)
    (unmarked : (headers index).isMarked = false) (i : Nat) :
    store s.lineHeaders index LineHeader.clear i =
      if i < index + 1 ∧ (headers i).isMarked = false then LineHeader.clear else headers i := by
  rw [store_apply, scan.cleared]
  by_cases same : i = index
  · subst same
    simp [unmarked]
  · simp only [if_neg same, show i < index + 1 ↔ i < index by omega]

/-- The line before an unmarked line outside a hole is marked. -/
theorem marked_before (scan : Scan memory headers block index closed none s)
    (unmarked : (headers index).isMarked = false) (inside : index < lineCount) :
    index = 0 ∨ (headers (index - 1)).isMarked = true := by
  rcases scan.idle rfl with start | before | stop | marked
  · exact Or.inl start
  · exact Or.inr before
  · omega
  · rw [marked] at unmarked
    cases unmarked

/-- An unmarked line outside a hole, before a marked line or at the end. -/
theorem pass (scan : Scan memory headers block index closed none s)
    (unmarked : (headers index).isMarked = false) (inside : index < lineCount)
    (next : index = lineCount - 1 ∨ (headers (index + 1)).isMarked = true) :
    Scan memory headers block (index + 1) closed none
      { s with lineHeaders := store s.lineHeaders index LineHeader.clear } := by
  refine ⟨scan.clear_headers unmarked, fun hole member => ?_, by simp, scan.ordered, by simp,
    scan.hole, scan.previous, scan.first, scan.links, scan.limits, by simp, scan.frame,
    scan.closedMaximal, by simp, fun _ => ?_, fun i start less unmarkedI previous => ?_⟩
  · obtain ⟨lines, le⟩ := scan.closedOk hole member
    exact ⟨lines, by omega⟩
  · rcases next with last | marked
    · exact Or.inr (Or.inr (Or.inl (by omega)))
    · exact Or.inr (Or.inr (Or.inr marked))
  · rcases Nat.lt_succ_iff_lt_or_eq.mp less with before | rfl
    · exact scan.complete i start before unmarkedI previous
    · rcases scan.marked_before unmarked inside with first | marked
      · omega
      · rw [marked] at previous
        cases previous

/-- An unmarked line inside a hole. -/
theorem grow {j : Nat} (scan : Scan memory headers block index closed (some j) s)
    (unmarked : (headers index).isMarked = false) :
    Scan memory headers block (index + 1) closed (some j)
      { s with lineHeaders := store s.lineHeaders index LineHeader.clear } := by
  refine ⟨scan.clear_headers unmarked, fun hole member => ?_, ?_, scan.ordered, scan.openedLast,
    scan.hole, by simp, scan.first, scan.links, scan.limits, scan.openedLimit, scan.frame,
    scan.closedMaximal, scan.openedMaximal, by simp, fun i start less unmarkedI previous => ?_⟩
  · obtain ⟨lines, le⟩ := scan.closedOk hole member
    exact ⟨lines, by omega⟩
  · intro k same
    obtain ⟨start, some, lines⟩ := scan.openedOk k same
    refine ⟨start, by omega, fun i low high => ?_⟩
    rcases Nat.lt_succ_iff_lt_or_eq.mp high with before | rfl
    · exact lines i low before
    · exact ⟨unmarked, (lines (i - 1) (by omega) (by omega)).1⟩
  · rcases Nat.lt_succ_iff_lt_or_eq.mp less with before | rfl
    · exact scan.complete i start before unmarkedI previous
    · have := (scan.openedOk j rfl).some
      exact Or.inr ⟨j, rfl, by omega⟩

/-- A hole ends at a marked line, or at the end of the block. -/
theorem close {j : Nat} (scan : Scan memory headers block index closed (some j) s)
    (ends : index = lineCount ∨ (headers index).isMarked = true) :
    Scan memory headers block index (closed ++ [(j, index)]) none
      { s with
        memory := s.memory.store s.hole (Block.line block index)
        previousHole := s.hole
        hole := null } := by
  have atHole : s.hole = Block.line block j := scan.hole
  have opened := scan.openedOk j rfl
  have starts : (closed ++ [(j, index)]).map Prod.fst ++ (none : Option Nat).toList =
      closed.map Prod.fst ++ (some j).toList := by simp
  have load : ∀ a, (s.memory.store s.hole (Block.line block index)).load a =
      if a = Block.line block j then Block.line block index else s.memory.load a := by
    intro a
    rw [atHole]
    rfl
  refine ⟨scan.cleared, ?_, by simp, ?_, by simp, rfl, ?_, ?_, ?_, ?_, by simp, ?_, ?_, by simp, ?_, ?_⟩
  · intro hole member
    rcases List.mem_append.mp member with old | new
    · exact scan.closedOk hole old
    · rw [List.mem_singleton.mp new]
      exact ⟨opened, Nat.le_refl _⟩
  · rw [List.pairwise_append]
    refine ⟨scan.ordered, by simp, ?_⟩
    intro x old y new
    rw [List.mem_singleton.mp new]
    exact scan.openedLast j rfl x old
  · intro _
    rw [List.getLast?_concat, atHole]
    rfl
  · rw [starts]
    exact scan.first
  · rw [starts]
    refine scan.links.congr fun a member => ?_
    obtain ⟨k, -, rfl⟩ := List.mem_map.mp member
    rw [load, if_neg (Ne.symm (line_ne block j k))]
  · intro hole member
    rw [load]
    rcases List.mem_append.mp member with old | new
    · have before := scan.openedLast j rfl hole old
      have some := (scan.closedOk hole old).1.some
      rw [if_neg, scan.limits hole old]
      intro same
      have := line_injective same
      omega
    · rw [List.mem_singleton.mp new]
      exact if_pos rfl
  · intro a away
    rw [starts] at away
    rw [load, if_neg (away j (by simp)).1]
    exact scan.frame a away
  · intro hole member
    rcases List.mem_append.mp member with old | new
    · exact scan.closedMaximal hole old
    · rw [List.mem_singleton.mp new]
      exact ⟨scan.openedMaximal j rfl, ends⟩
  · exact fun _ => Or.inr (Or.inr ends)
  · intro i start less unmarked before
    left
    rcases scan.complete i start less unmarked before with ⟨hole, member, inside⟩ | ⟨k, same, le⟩
    · exact ⟨hole, by simp [member], inside⟩
    · obtain rfl := Option.some.inj same
      exact ⟨(j, index), by simp, le, less⟩

/-- Two unmarked lines open a hole at the second. -/
theorem openHole (scan : Scan memory headers block index closed none s)
    (unmarked : (headers index).isMarked = false) (inside : index < lineCount)
    (next : (headers (index + 1)).isMarked = false) :
    Scan memory headers block (index + 2) closed (some (index + 1))
      (GlobalAllocator.openHole block (index + 1)
        { s with lineHeaders := store s.lineHeaders index LineHeader.clear }) := by
  have previous := scan.previous rfl
  have below : ∀ hole ∈ closed, hole.1 < index + 1 := by
    intro hole member
    obtain ⟨lines, le⟩ := scan.closedOk hole member
    have := lines.some
    omega
  -- the three words that are written
  have load : ∀ a, (GlobalAllocator.openHole block (index + 1)
      { s with lineHeaders := store s.lineHeaders index LineHeader.clear }).memory.load a =
      if s.previousHole ≠ null ∧ a = s.previousHole + 8 then Block.line block (index + 1)
      else if a = Block.line block (index + 1) + 8 then null
      else if a = Block.line block (index + 1) then null else s.memory.load a := by
    intro a
    by_cases some : s.previousHole ≠ null
    · simp only [GlobalAllocator.openHole, if_pos some, Memory.store, store_apply]
      by_cases same : a = s.previousHole + 8
      · rw [if_pos same, if_pos (show _ ∧ _ from ⟨some, same⟩)]
      · rw [if_neg same, if_neg (show ¬ (_ ∧ a = s.previousHole + 8) from fun h => same h.2)]
    · simp only [GlobalAllocator.openHole, if_neg some, Memory.store, store_apply]
      rw [if_neg (show ¬ (s.previousHole ≠ null ∧ _) from fun h => some h.1)]
  have marked := scan.marked_before unmarked inside
  refine ⟨?_, ?_, ?_, scan.ordered, ?_, rfl, by simp, ?_, ?_, ?_, ?_, ?_, scan.closedMaximal, ?_,
    by simp, ?_⟩
  · intro i
    have cleared := scan.clear_headers unmarked i
    simp only [GlobalAllocator.openHole]
    rw [store_apply, cleared]
    by_cases same : i = index + 1
    · subst same
      simp [next]
    · simp only [if_neg same, show i < index + 2 ↔ i < index + 1 by omega]
  · intro hole member
    obtain ⟨lines, le⟩ := scan.closedOk hole member
    exact ⟨lines, by omega⟩
  · intro j same
    obtain rfl := Option.some.inj same
    refine ⟨by omega, by omega, fun i low high => ?_⟩
    obtain rfl : i = index + 1 := by omega
    exact ⟨next, unmarked⟩
  · intro j same hole member
    obtain rfl := Option.some.inj same
    have := (scan.closedOk hole member).2
    omega
  · have first := scan.first
    simp only [GlobalAllocator.openHole]
    cases closed with
    | nil =>
      have invalid : s.firstFreeLineIndex = invalidLineIndex := first
      rw [if_pos invalid]
      rfl
    | cons hole rest =>
      have valid : s.firstFreeLineIndex = (hole.1 : Int) := by simpa using first
      rw [if_neg (by rw [valid, invalidLineIndex]; omega), valid]
      simp
  · have links := scan.links
    simp only [Option.toList_none, List.append_nil] at links
    rcases List.eq_nil_or_concat closed with rfl | ⟨front, last, rfl⟩
    · have none : s.previousHole = null := previous
      simp only [List.map_nil, List.nil_append, Option.toList_some, List.head?_cons, Option.map_some,
        Option.getD_some, List.map_cons, Links.cons_iff, Links.nil_iff, true_and]
      rw [load, if_neg (fun h => h.1 none), if_pos rfl]
    · rw [List.concat_eq_append] at *
      rw [List.getLast?_concat] at previous
      have previous : s.previousHole = Block.line block last.1 := previous
      have nodup : ∀ hole ∈ front, hole.1 ≠ last.1 := by
        intro hole member same
        have ordered := (List.pairwise_append.mp scan.ordered).2.2 hole member last (by simp)
        have := (scan.closedOk hole (by simp [member])).1.some
        omega
      simp only [List.map_append, List.map_cons, List.map_nil, Option.toList_some,
        List.append_assoc, List.singleton_append] at links ⊢
      rw [Links.split] at links
      have head : (List.map Prod.fst front ++ [last.1, index + 1]).head? =
          (List.map Prod.fst front ++ [last.1]).head? := by
        cases front <;> rfl
      rw [head, Links.split]
      refine ⟨links.1.congr fun a member => ?_, ?_⟩
      · obtain ⟨k, hk, rfl⟩ := List.mem_map.mp member
        obtain ⟨hole, inFront, rfl⟩ := List.mem_map.mp hk
        have := below hole (by simp [inFront])
        rw [load, if_neg, if_neg, if_neg (Ne.symm (line_ne _ _ _))]
        · intro same
          have := line_injective (Nat.add_right_cancel same)
          omega
        · rw [previous]
          rintro ⟨-, same⟩
          exact nodup hole inFront (line_injective (Nat.add_right_cancel same))
      · refine ⟨?_, ?_⟩
        · rw [load, if_pos ⟨by rw [previous]; exact line_pos _ _, by rw [previous]⟩]
        · rw [Links.nil_iff]
          refine (load _).trans ?_
          rw [if_neg, if_pos rfl]
          rw [previous]
          rintro ⟨-, same⟩
          have := line_injective (Nat.add_right_cancel same)
          have := below last (by simp)
          omega
  · intro hole member
    have := below hole member
    rw [load, if_neg, if_neg (line_ne _ _ _), if_neg, scan.limits hole member]
    · intro same
      have := line_injective same
      omega
    · rw [previous]
      rintro ⟨some, same⟩
      cases last : closed.getLast? with
      | none => rw [last] at some; exact some rfl
      | some hole' =>
        rw [last] at same
        exact line_ne _ _ _ same
  · intro j same
    obtain rfl := Option.some.inj same
    rw [load, if_neg, if_neg (line_ne _ _ _), if_pos rfl]
    rw [previous]
    rintro ⟨some, same⟩
    cases last : closed.getLast? with
    | none => rw [last] at some; exact some rfl
    | some hole' =>
      rw [last] at same
      exact line_ne _ _ _ same
  · intro a away
    have here := away (index + 1) (by simp)
    rw [load, if_neg, if_neg here.2, if_neg here.1]
    · exact scan.frame a fun j member => away j (by simp at member ⊢; exact Or.inl member)
    · rw [previous]
      rintro ⟨some, same⟩
      cases last : closed.getLast? with
      | none => rw [last] at some; exact some rfl
      | some hole' =>
        rw [last] at same
        have member := List.mem_of_getLast? last
        exact (away hole'.1 (by simp; exact Or.inl ⟨_, member⟩)).2 same
  · intro j same
    obtain rfl := Option.some.inj same
    rcases marked with first | before
    · exact Or.inl (by omega)
    · exact Or.inr before
  · intro i start less unmarkedI before
    rcases Nat.lt_trichotomy i index with lt | rfl | gt
    · rcases scan.complete i start lt unmarkedI before with ⟨hole, member, inside⟩ | ⟨k, same, -⟩
      · exact Or.inl ⟨hole, member, inside⟩
      · cases same
    · rcases marked with first | markedBefore
      · omega
      · rw [markedBefore] at before
        cases before
    · exact Or.inr ⟨index + 1, rfl, by omega⟩

/-- The header of the next line is still the one from before the loop. -/
theorem current (scan : Scan memory headers block index closed opened s) {i : Nat}
    (later : index ≤ i) : s.lineHeaders i = headers i := by
  rw [scan.cleared, if_neg (by omega)]

/-- The loop runs to the last line. -/
theorem run (fuel : Nat) (scan : Scan memory headers block index closed opened s)
    (inside : index ≤ lineCount) (enough : lineCount ≤ index + fuel) :
    ∃ closed opened, Scan memory headers block lineCount closed opened
      (GlobalAllocator.scanLines block fuel index s) := by
  induction fuel generalizing index closed opened s with
  | zero =>
    obtain rfl : index = lineCount := by omega
    exact ⟨closed, opened, scan⟩
  | succ fuel ih =>
    rw [GlobalAllocator.scanLines]
    by_cases more : index < lineCount
    · rw [if_pos more, scan.current (Nat.le_refl _)]
      by_cases marked : (headers index).isMarked = true
      · rw [if_pos marked]
        cases opened with
        | none =>
          rw [if_neg (by rw [scan.hole]; simp)]
          exact ih (scan.skip marked) (by omega) (by omega)
        | some j =>
          rw [if_pos (by rw [scan.hole]; exact line_pos block j)]
          exact ih ((scan.close (Or.inr marked)).skip marked) (by omega) (by omega)
      · have unmarked : (headers index).isMarked = false := by simpa using marked
        have next : store s.lineHeaders index LineHeader.clear (index + 1) = headers (index + 1) := by
          rw [store_other _ _ _ _ (by omega), scan.current (by omega : index ≤ index + 1)]
        rw [if_neg marked]
        dsimp only
        cases opened with
        | none =>
          by_cases opens : index ≠ lineCount - 1 ∧ (headers (index + 1)).isMarked = false
          · rw [if_pos ⟨scan.hole, opens.1, by rw [next]; exact opens.2⟩]
            exact ih (scan.openHole unmarked more opens.2) (by omega) (by omega)
          · rw [if_neg (fun h => opens ⟨h.2.1, by rw [← next]; exact h.2.2⟩)]
            have next' : index = lineCount - 1 ∨ (headers (index + 1)).isMarked = true := by
              by_cases last : index = lineCount - 1
              · exact Or.inl last
              · exact Or.inr (by simpa using fun h => opens ⟨last, h⟩)
            exact ih (scan.pass unmarked more next') (by omega) (by omega)
        | some j =>
          rw [if_neg (fun h => line_pos block j (scan.hole.symm.trans h.1))]
          exact ih (scan.grow unmarked) (by omega) (by omega)
    · rw [if_neg more]
      obtain rfl : index = lineCount := by omega
      exact ⟨closed, opened, scan⟩

end Scan

/-- What recycling a marked block leaves: `holes` are its runs of lines. -/
structure Recycled (memory : Memory) (header : Block) (block : Nat) (holes : List (Nat × Nat))
    (memory' : Memory) (header' : Block) : Prop where
  lines : ∀ hole ∈ holes, HoleLines header.lineHeaders hole.1 hole.2 ∧ hole.2 ≤ lineCount
  maximal : ∀ hole ∈ holes,
    (hole.1 = 1 ∨ (header.lineHeaders (hole.1 - 2)).isMarked = true) ∧
    (hole.2 = lineCount ∨ (header.lineHeaders hole.2).isMarked = true)
  complete : ∀ i, 1 ≤ i → i < lineCount → (header.lineHeaders i).isMarked = false →
    (header.lineHeaders (i - 1)).isMarked = false → ∃ hole ∈ holes, hole.1 ≤ i ∧ i < hole.2
  ordered : holes.Pairwise fun x y => x.2 ≤ y.1
  chain : ∀ hole rest, holes = hole :: rest →
    header'.flag = .recyclable ∧ header'.firstFreeLineIndex = hole.1 ∧
    HoleChain memory' (Block.line block hole.1) (holes.map (span block))
  unavailable : holes = [] → header'.flag = .unavailable
  cleared : ∀ i, header'.lineHeaders i =
    if i < lineCount ∧ (header.lineHeaders i).isMarked = false then LineHeader.clear
    else header.lineHeaders i
  marked : header'.marked = header.marked
  frame : ∀ a, Block.start block ≤ a → a < Block.stop block →
    (∀ hole ∈ holes, a ≠ Block.line block hole.1 ∧ a ≠ Block.line block hole.1 + 8) →
    memory'.load a = memory.load a

/-- The records of the holes lie in the lines of the block. -/
theorem HoleLines.record_within {headers : Nat → LineHeader} {j k : Nat}
    (lines : HoleLines headers j k) (block : Nat) (bound : k ≤ lineCount) :
    Block.start block ≤ Block.line block j ∧ Block.line block j + 8 < Block.stop block := by
  have := lines.some
  simp only [Block.line, Block.start, Block.stop, lineCount, lineSize, blockSize] at *
  omega

/-- What a recycled block looks like depends on its own lines and header only. -/
theorem Recycled.congr {memory memory' memory'' : Memory} {header header' header'' : Block}
    {block : Nat} {holes : List (Nat × Nat)}
    (recycled : Recycled memory header block holes memory' header')
    (loads : ∀ a, Block.start block ≤ a → a < Block.stop block → memory''.load a = memory'.load a)
    (same : SameBlock header'' header') : Recycled memory header block holes memory'' header'' := by
  refine ⟨recycled.lines, recycled.maximal, recycled.complete, recycled.ordered, ?_, ?_, ?_, ?_, ?_⟩
  · intro hole rest split
    obtain ⟨flag, first, chain⟩ := recycled.chain hole rest split
    refine ⟨same.flag.trans flag, same.firstFreeLineIndex.trans first, chain.links.congr ?_, ?_,
      chain.room⟩
    · intro a member
      obtain ⟨pair, inSpans, rfl⟩ := List.mem_map.mp member
      obtain ⟨hole, inHoles, rfl⟩ := List.mem_map.mp inSpans
      obtain ⟨lines, bound⟩ := recycled.lines hole inHoles
      have := lines.record_within block bound
      exact loads _ (by simp only [span]; omega) (by simp only [span]; omega)
    · intro pair member
      obtain ⟨hole, inHoles, rfl⟩ := List.mem_map.mp member
      obtain ⟨lines, bound⟩ := recycled.lines hole inHoles
      have := lines.record_within block bound
      rw [← chain.limits _ member]
      exact loads _ (by simp only [span]; omega) (by simp only [span]; omega)
  · exact fun none => same.flag.trans (recycled.unavailable none)
  · intro i
    rw [same.lineHeaders]
    exact recycled.cleared i
  · exact same.marked.trans recycled.marked
  · intro a low high away
    exact (loads a low high).trans (recycled.frame a low high away)

theorem line_lineCount (block : Nat) : Block.line block lineCount = Block.stop block := by
  rw [Block.line, Block.start, Block.stop, Nat.add_assoc]
  rfl

/-- The last assignments of the loop body, after the line loop left `s`. -/
theorem recycleLines_eq (memory : Memory) (header : Block) (block : Nat) (s : LineScan)
    (run : GlobalAllocator.scanLines block lineCount 0
      ⟨memory, header.lineHeaders, invalidLineIndex, null, null⟩ = s) :
    GlobalAllocator.recycleLines memory header block =
      (if s.hole ≠ null ∧ s.memory.load s.hole = null
        then s.memory.store s.hole (Block.line block lineCount) else s.memory,
      if s.firstFreeLineIndex = invalidLineIndex
        then Block.setUnavailable { header with lineHeaders := s.lineHeaders }
        else Block.setRecyclable { header with lineHeaders := s.lineHeaders } s.firstFreeLineIndex) := by
  rw [GlobalAllocator.recycleLines, run, line_lineCount]
  split <;> rfl

theorem recycleLines_spec (memory : Memory) (header : Block) (block : Nat) :
    ∃ holes, Recycled memory header block holes
        (GlobalAllocator.recycleLines memory header block).1
        (GlobalAllocator.recycleLines memory header block).2 ∧
      ∀ a, a < Block.start block ∨ Block.stop block ≤ a →
        (GlobalAllocator.recycleLines memory header block).1.load a = memory.load a := by
  obtain ⟨closed, opened, scan⟩ := (Scan.start memory header.lineHeaders block).run lineCount
    (by omega) (by omega)
  -- the hole at the end of the block, if there is one, gets its limit
  obtain ⟨holes, s, scan, equal⟩ : ∃ holes s,
      Scan memory header.lineHeaders block lineCount holes none s ∧
      GlobalAllocator.recycleLines memory header block = (s.memory,
        if s.firstFreeLineIndex = invalidLineIndex
        then Block.setUnavailable { header with lineHeaders := s.lineHeaders }
        else Block.setRecyclable { header with lineHeaders := s.lineHeaders } s.firstFreeLineIndex) := by
    rw [recycleLines_eq memory header block _ rfl]
    cases opened with
    | none =>
      refine ⟨closed, _, scan, ?_⟩
      rw [if_neg (fun h => h.1 scan.hole)]
    | some j =>
      refine ⟨_, _, scan.close (Or.inl rfl), ?_⟩
      rw [if_pos ⟨by rw [scan.hole]; exact line_pos block j, by
        rw [scan.hole]; exact scan.openedLimit j rfl⟩]
  have links := scan.links
  have first := scan.first
  simp only [Option.toList_none, List.append_nil] at links first
  rw [equal]
  have frame : ∀ a, (∀ hole ∈ holes,
      a ≠ Block.line block hole.1 ∧ a ≠ Block.line block hole.1 + 8) →
      s.memory.load a = memory.load a := by
    intro a away
    refine scan.frame a fun j member => ?_
    simp only [Option.toList_none, List.append_nil] at member
    obtain ⟨hole, inHoles, rfl⟩ := List.mem_map.mp member
    exact away hole inHoles
  refine ⟨holes, ⟨scan.closedOk, scan.closedMaximal, ?_, scan.ordered, ?_, ?_, ?_, ?_,
    fun a _ _ => frame a⟩, fun a outside => frame a fun hole member => ?_⟩
  · intro i start inside unmarked previous
    rcases scan.complete i start inside unmarked previous with found | ⟨j, same, -⟩
    · exact found
    · cases same
  · rintro hole rest rfl
    have valid : s.firstFreeLineIndex = (hole.1 : Int) := first
    rw [if_neg (by rw [valid, invalidLineIndex]; omega)]
    refine ⟨rfl, valid, ?_, ?_, ?_⟩
    · rw [List.map_map]
      rw [List.map_map] at links
      exact links
    · intro pair member
      obtain ⟨old, inHoles, rfl⟩ := List.mem_map.mp member
      exact scan.limits old inHoles
    · intro pair member
      obtain ⟨old, inHoles, rfl⟩ := List.mem_map.mp member
      have := (scan.closedOk old inHoles).1.some
      simp only [span, Block.line, lineSize]
      omega
  · rintro rfl
    have invalid : s.firstFreeLineIndex = invalidLineIndex := first
    rw [if_pos invalid]
    rfl
  · intro i
    split <;> exact scan.cleared i
  · split <;> rfl
  · obtain ⟨lines, bound⟩ := scan.closedOk hole member
    have := lines.record_within block bound
    omega

/-! ## The objects after recycling -/

/-- The objects of the marked lines. -/
def Layout.keep (layout : Layout) (headers : Nat → LineHeader) : Layout :=
  ⟨fun i => if (headers i).isMarked then layout.objects i else [], layout.finish⟩

theorem Layout.mem_keep {layout : Layout} {headers : Nat → LineHeader} {i object : Nat} :
    object ∈ (layout.keep headers).objects i ↔
      (headers i).isMarked = true ∧ object ∈ layout.objects i := by
  rw [Layout.keep]
  dsimp only
  split
  · next marked => simp [marked]
  · next unmarked => simp [unmarked]

theorem Layout.walked_of_keep {layout : Layout} {headers : Nat → LineHeader} {object : Nat}
    (walked : (layout.keep headers).Walked object) : layout.Walked object := by
  obtain ⟨i, member⟩ := walked
  exact ⟨i, (Layout.mem_keep.mp member).2⟩

section Lines
variable {headers : Nat → LineHeader} {block i j k object size a : Nat}

theorem line_le (block : Nat) (le : i ≤ j) : Block.line block i ≤ Block.line block j := by
  simp only [Block.line, lineSize]
  omega

theorem line_succ : Block.line block i + lineSize = Block.line block (i + 1) := by
  simp only [Block.line, lineSize]
  omega

/-- A marked line lies before or behind a hole. -/
theorem HoleLines.beside (lines : HoleLines headers j k) (marked : (headers i).isMarked = true) :
    i < j ∨ k ≤ i := by
  by_contra inside
  have := (lines.unmarked i (by omega) (by omega)).1
  rw [marked] at this
  cases this

/-- An address of a marked line is in no hole. -/
theorem HoleLines.outside_word (lines : HoleLines headers j k) (block : Nat)
    (marked : (headers i).isMarked = true) (low : Block.line block i ≤ a)
    (high : a < Block.line block i + lineSize) :
    a < Block.line block j ∨ Block.line block k ≤ a := by
  rw [line_succ] at high
  rcases lines.beside marked with before | behind
  · left
    have := line_le block (show i + 1 ≤ j by omega)
    omega
  · right
    have := line_le block behind
    omega

/-- An object that starts in a marked line and avoids the lines of holes is in no hole. -/
theorem HoleLines.outside (lines : HoleLines headers j k)
    (marked : (headers i).isMarked = true) (low : Block.line block i ≤ object)
    (high : object < Block.line block i + lineSize)
    (avoids : AvoidsHoles headers block object size) :
    object + size ≤ Block.line block j ∨ Block.line block k ≤ object := by
  rcases lines.outside_word block marked low high with before | behind
  · left
    obtain ⟨unmarked, previous⟩ := lines.unmarked j (Nat.le_refl j) lines.some
    rcases avoids j lines.start unmarked previous with here | beyond
    · exact here
    · have := line_le block (show j ≤ j + 1 by omega)
      omega
  · exact Or.inr behind

/-- The header of an object that starts in a marked line. -/
theorem avoidsHoles_header (marked : (headers i).isMarked = true)
    (low : Block.line block i ≤ object) (high : object < Block.line block i + lineSize) :
    AvoidsHoles headers block object sizeofObject := by
  intro h start unmarked previous
  have notHere : h ≠ i ∧ h - 1 ≠ i := by
    refine ⟨?_, ?_⟩
    · rintro rfl
      rw [marked] at unmarked
      cases unmarked
    · rintro rfl
      rw [marked] at previous
      cases previous
  simp only [Block.line, Block.start, lineSize, sizeofObject] at *
  omega

end Lines

namespace BlockOk
variable {memory memory' : Memory} {header header' : Block} {block : Nat} {layout : Layout}
  {free holes : List (Nat × Nat)} {extent : Nat → Nat}

/-- Recycling keeps the objects of marked lines, with the bytes that no hole takes. -/
theorem recycle (ok : BlockOk memory header.lineHeaders block layout free extent)
    (extent' : Nat → Nat)
    (recycled : Recycled memory header block holes memory' header')
    (shrinks : ∀ object, (layout.keep header.lineHeaders).Walked object →
      sizeofObject ≤ extent' object ∧ extent' object ≤ extent object)
    (avoids : ∀ object, (layout.keep header.lineHeaders).Walked object →
      AvoidsHoles header.lineHeaders block object (extent' object)) :
    BlockOk memory' header'.lineHeaders block (layout.keep header.lineHeaders)
      (holes.map (span block)) extent' := by
  -- an object that stays, the line it starts in, and the holes
  have place : ∀ i, ∀ object ∈ (layout.keep header.lineHeaders).objects i,
      (header.lineHeaders i).isMarked = true ∧ object ∈ layout.objects i ∧
      Block.line block i ≤ object ∧ object < Block.line block i + lineSize := by
    intro i object member
    obtain ⟨marked, member⟩ := Layout.mem_keep.mp member
    have := ok.in_line member
    exact ⟨marked, member, by omega, this.2⟩
  have kept : ∀ i < lineCount, (header'.lineHeaders i).containsObject = true →
      (header.lineHeaders i).isMarked = true ∧ header'.lineHeaders i = header.lineHeaders i := by
    intro i bound has
    rw [recycled.cleared] at has ⊢
    split at has
    · simp at has
    · next stays =>
      rw [if_neg stays]
      exact ⟨by simpa [bound] using stays, rfl⟩
  have record : ∀ i < lineCount, ∀ a, (header.lineHeaders i).isMarked = true →
      Block.line block i ≤ a → a < Block.line block i + lineSize →
      memory'.load a = memory.load a := by
    intro i bound a marked low high
    refine recycled.frame a ?_ ?_ fun hole member => ?_
    · simp only [Block.line] at *
      omega
    · simp only [Block.line, Block.start, Block.stop, lineCount, lineSize, blockSize] at *
      omega
    have lines := (recycled.lines hole member).1
    have next := line_le block (Nat.succ_le_of_lt lines.some)
    rw [Nat.succ_eq_add_one, ← line_succ, lineSize] at next
    rcases lines.outside_word block marked low high with before | behind <;> omega
  have size : ∀ object, (layout.keep header.lineHeaders).Walked object →
      Object.size memory' object = Object.size memory object := by
    rintro object ⟨i, member⟩
    obtain ⟨marked, member', low, high⟩ := place i object member
    exact record i (ok.contains_of_mem member').1 object marked low high
  have holeOf : ∀ hole ∈ holes.map (span block), ∃ j k, hole = (Block.line block j, Block.line block k) ∧
      HoleLines header.lineHeaders j k ∧ k ≤ lineCount := by
    intro hole member
    obtain ⟨pair, inHoles, rfl⟩ := List.mem_map.mp member
    exact ⟨pair.1, pair.2, rfl, recycled.lines pair inHoles⟩
  refine ⟨ok.aligned, ?_, ?_, ?_, ?_, ?_, ⟨?_, ?_⟩, ?_, ?_, ?_, ?_⟩
  · intro i missing
    rw [List.eq_nil_iff_forall_not_mem]
    intro object member
    obtain ⟨marked, member, -, -⟩ := place i object member
    obtain ⟨bound, has⟩ := ok.contains_of_mem member
    refine missing ⟨bound, ?_⟩
    rw [recycled.cleared, if_neg (by simp [marked])]
    exact has
  · intro i bound has
    obtain ⟨marked, same⟩ := kept i bound has
    rw [same] at has
    obtain ⟨walk, some⟩ := ok.walk i bound has
    have objects : (layout.keep header.lineHeaders).objects i = layout.objects i := by
      rw [Layout.keep]
      exact if_pos marked
    rw [objects, same]
    refine ⟨⟨walk.path.congr fun object member => ?_, walk.inLine, ?_⟩, some⟩
    · rw [objectStop, objectStop, size object ⟨i, by rw [objects]; exact member⟩]
    · rcases Nat.lt_or_ge (layout.finish i) (Block.line block i + lineSize) with short | long
      · right
        have low := (Links.within (ok.grows i) walk.path).1
        have same := record i bound (layout.finish i) marked (by omega) short
        exact same.trans (walk.ends.resolve_left (by omega))
      · exact Or.inl long
  · intro object walked
    rw [objectStop, size object walked]
    exact ok.shape object (Layout.walked_of_keep walked)
  · intro object walked
    have := ok.extents object (Layout.walked_of_keep walked)
    have := shrinks object walked
    rw [size object walked]
    omega
  · intro x y hx hy different
    have := ok.apart x y (Layout.walked_of_keep hx) (Layout.walked_of_keep hy) different
    have := shrinks x hx
    have := shrinks y hy
    omega
  · intro hole member
    obtain ⟨j, k, rfl, lines, bound⟩ := holeOf hole member
    have aligned := ok.aligned
    have := lines.some
    simp only [Block.line, Block.start, Block.stop, lineCount, lineSize, blockSize, wordSize] at *
    omega
  · rw [List.pairwise_map]
    exact recycled.ordered.imp fun before => Or.inl (line_le block before)
  · rintro object walked hole member
    obtain ⟨i, member'⟩ := walked
    obtain ⟨marked, -, low, high⟩ := place i object member'
    obtain ⟨j, k, rfl, lines, -⟩ := holeOf hole member
    exact lines.outside marked low high (avoids object ⟨i, member'⟩)
  · intro i bound has short
    obtain ⟨marked, same⟩ := kept i bound has
    rw [same] at has
    obtain ⟨walk, -⟩ := ok.walk i bound has
    have low := (Links.within (ok.grows i) walk.path).1
    refine ⟨fun object walked => ?_, fun hole member => ?_⟩
    · have := (ok.terminator i bound has short).1 object (Layout.walked_of_keep walked)
      have := shrinks object walked
      have : (layout.keep header.lineHeaders).finish i = layout.finish i := rfl
      omega
    · obtain ⟨j, k, rfl, lines, -⟩ := holeOf hole member
      rcases lines.outside_word block marked (by omega : _ ≤ layout.finish i) short with h | h
      · exact Or.inl (Nat.le_of_lt h)
      · exact Or.inr h
  · intro i bound hole member low high
    obtain ⟨j, k, rfl, lines, -⟩ := holeOf hole member
    have inside : j ≤ i ∧ i < k := by
      simp only [Block.line, lineSize] at low high
      omega
    rw [recycled.cleared, if_pos ⟨bound, (lines.unmarked i inside.1 inside.2).1⟩]
    exact LineHeader.containsObject_clear
  · intro i bound hole member has low high some
    obtain ⟨j, k, rfl, lines, -⟩ := holeOf hole member
    simp only [Block.line, lineSize] at low high
    omega

end BlockOk
end ImmixGc.Guarantees
