import ImmixGc.Guarantees.BlockHistory
import ImmixGc.Guarantees.ConservativeMarking

/-!
# The line table against an exhaustive search

In a block that was filled from end to end, every object that the line walks visit was
handed out and still has all its bytes. `findAndMarkSmallObject` then finds for each address
of the block what a search of all objects would.
-/
namespace ImmixGc.Guarantees
open Source Foundation

/-- A free block, filled by bump allocations while the client writes into its objects. -/
inductive Filled (block : Nat) (memory : Memory) : BlockView → Prop where
  | free : Filled block memory (.fresh memory block)
  | allocate {s : BlockView} {header : Block} (filled : Filled block memory s) (size atomic : Nat)
      (fits : Fits block s header size) : Filled block memory (s.bump header size atomic)
  | write {s : BlockView} {object : Nat × Nat} (filled : Filled block memory s) (a value : Nat)
      (owned : object ∈ s.live)
      (payload : object.1 + sizeofObject ≤ a ∧ a < object.1 + object.2) (word : a % wordSize = 0) :
      Filled block memory { s with memory := s.memory.store a value }

/-- The pointer lies in the payload of an object given by address and size. -/
def inPayload (pointer : Nat) (o : Nat × Nat) : Bool :=
  o.1 + sizeofObject ≤ pointer && pointer < o.1 + o.2

theorem inPayload_iff {pointer : Nat} {o : Nat × Nat} :
    inPayload pointer o = true ↔ o.1 + sizeofObject ≤ pointer ∧ pointer < o.1 + o.2 := by
  rw [inPayload, Bool.and_eq_true, decide_eq_true_iff, decide_eq_true_iff]

/-- Every object that a walk visits was handed out. -/
theorem Filled.viewOk {block : Nat} {memory : Memory} {s : BlockView}
    (aligned : block % blockSize = 0) (filled : Filled block memory s) :
    ∃ layout holes extent, ViewOk block s layout holes extent ∧
      ∀ x, layout.Walked x → ∃ size, (x, size) ∈ s.live := by
  induction filled with
  | free =>
    refine ⟨_, _, _, ViewOk.fresh memory aligned, ?_⟩
    rintro x ⟨i, member⟩
    cases member
  | allocate _ size atomic fits ih =>
    obtain ⟨layout, holes, extent, view, handed⟩ := ih
    obtain ⟨layout', extent', view', walked, -⟩ := view.allocate atomic fits
    refine ⟨layout', holes, extent', view', fun x hx => ?_⟩
    rcases walked x hx with old | rfl
    · obtain ⟨size', member⟩ := handed x old
      exact ⟨size', List.mem_cons_of_mem _ member⟩
    · exact ⟨size, List.mem_cons_self⟩
  | write _ a value owned payload _ ih =>
    obtain ⟨layout, holes, extent, view, handed⟩ := ih
    exact ⟨layout, holes, extent, view.write value owned payload, handed⟩

section Search
variable {block pointer : Nat} {memory : Memory} {s : BlockView} {g : Gc}

/-- What `findAndMarkSmallObject` does with a pointer to an object of the block. -/
theorem ViewOk.findAndMark {layout : Layout} {holes : List (Nat × Nat)} {extent : Nat → Nat}
    (view : ViewOk block s layout holes extent) (sameMemory : g.memory = s.memory)
    (sameHeader : g.block block = s.header) (place : Block.from pointer = block) {o : Nat × Nat}
    (member : o ∈ s.live) (inside : inPayload pointer o = true) :
    ∃ g', Collector.findAndMarkSmallObject pointer g = .ok g' ∧
      Object.isMarked g'.memory o.1 = true ∧
      (∀ x ∈ s.live, x.1 ≠ o.1 → Object.isMarked g'.memory x.1 = Object.isMarked g.memory x.1) ∧
      (Object.isMarked g.memory o.1 = false → LineMarked g' o.1) := by
  obtain ⟨⟨i, inLine⟩, sized, whole⟩ := view.live o member
  have line := view.ok.in_line inLine
  have shape := view.ok.shape o.1 ⟨i, inLine⟩
  have found := view.ok.findSmallObject_eq pointer inLine (whole.trans sized.symm)
    (Object.contains_iff.mpr (by rw [sized]; exact inPayload_iff.mp inside))
  rw [← sameMemory] at sized shape
  have home : Block.from o.1 = block := by
    have := view.ok.start_le ⟨i, inLine⟩
    refine from_eq view.ok.aligned ?_ ?_
    · simp only [Block.start] at this
      omega
    · have := shape.2.2.2.2
      simp only [objectStop, sizeofObject, Block.stop] at *
      omega
  rw [Collector.findAndMarkSmallObject, place, sameMemory, sameHeader, found, ok_bind]
  dsimp only
  by_cases already : Object.isMarked s.memory o.1 = true
  · rw [if_pos already]
    refine ⟨g, rfl, by rw [sameMemory]; exact already, fun _ _ _ => by rw [sameMemory],
      fun clear => ?_⟩
    rw [already] at clear
    cases clear
  · rw [if_neg already]
    have marked := markSmallObject_eq s.header (i := i) ⟨by omega, line.2⟩
      (sameMemory ▸ shape.2.2.1)
    rw [marked]
    refine ⟨_, rfl, ?_, fun x _ different => ?_, fun _ => ?_⟩
    · rw [scanObject_memory]
      exact Object.isMarked_mark _ _
    · rw [scanObject_memory]
      refine Object.isMarked_congr ?_
      rw [Object.mark, Object.load_setMarked, if_neg (by omega)]
    · have bound := (view.ok.contains_of_mem inLine).1
      refine ⟨i, bound, ?_⟩
      rw [scanObject_block, scanObject_memory, home]
      dsimp only
      rw [store_same]
      refine ⟨by omega, line.2, rfl, fun j covered => ?_⟩
      have sizeSame : Object.size (Object.mark s.memory o.1) o.1 = Object.size s.memory o.1 := by
        rw [Object.size, Object.mark, Object.load_setMarked, if_neg (by omega)]
        rfl
      rw [sizeSame] at covered
      dsimp only
      rw [if_pos covered]
      exact LineHeader.isMarked_mark _

/-- The line table agrees with an exhaustive search: for each address of the block, the one
object whose payload contains it is marked; where there is none, nothing changes. -/
theorem lookup_agrees_with_search (aligned : block % blockSize = 0)
    (filled : Filled block memory s) (sameMemory : g.memory = s.memory)
    (sameHeader : g.block block = s.header) (low : block ≤ pointer)
    (high : pointer < block + blockSize) :
    (∀ o ∈ s.live, inPayload pointer o = true →
      (∀ x ∈ s.live, inPayload pointer x = true → x = o) ∧
      ∃ g', Collector.findAndMarkSmallObject pointer g = .ok g' ∧
        Object.isMarked g'.memory o.1 = true ∧
        (∀ x ∈ s.live, x.1 ≠ o.1 →
          Object.isMarked g'.memory x.1 = Object.isMarked g.memory x.1) ∧
        (Object.isMarked g.memory o.1 = false → LineMarked g' o.1)) ∧
    ((∀ o ∈ s.live, inPayload pointer o = false) →
      Collector.findAndMarkSmallObject pointer g = .ok g) := by
  obtain ⟨layout, holes, extent, view, handed⟩ := filled.viewOk aligned
  have place := from_eq aligned low high
  refine ⟨fun o member inside => ⟨fun x hx insideX => ?_, ?_⟩, fun outside => ?_⟩
  · -- two objects that contain the address are the same
    obtain ⟨walkedO, sizedO, wholeO⟩ := view.live o member
    obtain ⟨walkedX, sizedX, wholeX⟩ := view.live x hx
    obtain ⟨payloadO, endO⟩ := inPayload_iff.mp inside
    obtain ⟨payloadX, endX⟩ := inPayload_iff.mp insideX
    have address : x.1 = o.1 := by
      by_contra different
      have := view.ok.apart x.1 o.1 walkedX walkedO different
      omega
    exact Prod.ext address (by rw [← wholeX, ← wholeO, address])
  · exact view.findAndMark sameMemory sameHeader place member inside
  · rw [Collector.findAndMarkSmallObject, place, sameMemory, sameHeader]
    rcases view.ok.findSmallObject_total pointer high with
      none | ⟨i, object, member, contains, -⟩
    · rw [none, ok_bind]
    · -- an object that a walk visits was handed out with all its bytes
      obtain ⟨size, given⟩ := handed object ⟨i, member⟩
      obtain ⟨-, sized, -⟩ := view.live _ given
      dsimp only at sized
      have missed := outside _ given
      rw [inPayload_iff.mpr (by rw [← sized]; exact Object.contains_iff.mp contains)] at missed
      cases missed

end Search

theorem Filled.allocated {block size : Nat} {memory : Memory} {s s' : BlockView}
    (filled : Filled block memory s) (success : s.allocate block size = .ok s') :
    Filled block memory s' := by
  obtain ⟨header, fits, rfl⟩ := BlockView.fits_of_allocate success
  exact filled.allocate size 0 fits

/-- Three objects, of which the first and the last lie over several lines. -/
def straddledBlock : Result BlockView := do
  let s ← (BlockView.fresh ⟨fun _ => 0⟩ 0x8000).allocate 0x8000 400
  let s ← s.allocate 0x8000 32
  s.allocate 0x8000 600

/-- A pointer into the last line of the last object finds that object, and one to the header
of the small object finds none. -/
theorem straddledBlock_agrees_with_search : ∃ s g g', straddledBlock = .ok s ∧
    s.live = [(0x82b0, 600), (0x8290, 32), (0x8100, 400)] ∧ g.memory = s.memory ∧
    Collector.findAndMarkSmallObject 0x8500 g = .ok g' ∧
    Object.isMarked g'.memory 0x82b0 = true ∧ LineMarked g' 0x82b0 ∧
    Object.isMarked g'.memory 0x8290 = Object.isMarked g.memory 0x8290 ∧
    Collector.findAndMarkSmallObject 0x8298 g = .ok g := by
  have checked : straddledBlock.map (fun s =>
      decide (s.live = [(0x82b0, 600), (0x8290, 32), (0x8100, 400)] ∧
        Object.isMarked s.memory 0x82b0 = false)) = .ok true := by
    decide +kernel
  obtain ⟨s, ran, facts⟩ := map_eq_ok checked
  obtain ⟨live, unmarked⟩ := of_decide_eq_true facts
  obtain ⟨s₁, first, rest⟩ := bind_eq_ok.mp ran
  obtain ⟨s₂, second, third⟩ := bind_eq_ok.mp rest
  have filled : Filled 0x8000 ⟨fun _ => 0⟩ s :=
    ((Filled.free.allocated first).allocated second).allocated third
  let g : Gc := { firstLineMarked with memory := s.memory, block := fun _ => s.header }
  have search (pointer : Nat) (low : 0x8000 ≤ pointer) (high : pointer < 0x8000 + blockSize) :=
    lookup_agrees_with_search (g := g) (by decide) filled rfl rfl low high
  obtain ⟨-, g', found, isMarked, others, lines⟩ :=
    (search 0x8500 (by decide) (by decide)).1 (0x82b0, 600) (by rw [live]; decide) (by decide)
  refine ⟨s, g, g', ran, live, rfl, found, isMarked, lines unmarked,
    others (0x8290, 32) (by rw [live]; decide) (by decide), ?_⟩
  refine (search 0x8298 (by decide) (by decide)).2 fun o member => ?_
  rw [live] at member
  revert o
  decide

end ImmixGc.Guarantees
