import ImmixGc.Guarantees.BlockLookup

/-!
# Unmarking and marking one block

Both write only mark bytes of objects that line walks visit, so the walks stay the same.
Unmarking clears every such byte and every line. Marking an object marks the line it starts
in and, when it is larger than a line, every line it overlaps: such an object is `Guarded`.
-/
namespace ImmixGc.Guarantees
open Source Foundation

theorem Object.load_setMarked (memory : Memory) (object value a : Nat) :
    (Object.setMarked memory object value).load a =
      if a = object + 8 then memory.load (object + 8) / 256 * 256 + value else memory.load a := rfl

theorem Object.isMarked_mark (memory : Memory) (object : Nat) :
    Object.isMarked (Object.mark memory object) object = true := by
  simp only [Object.isMarked, Object.marked, Object.mark, Object.load_setMarked, if_true, beq_iff_eq]
  omega

theorem Object.isMarked_congr {memory memory' : Memory} {object : Nat}
    (same : memory'.load (object + 8) = memory.load (object + 8)) :
    Object.isMarked memory' object = Object.isMarked memory object := by
  rw [Object.isMarked, Object.isMarked, Object.marked, Object.marked, same]

theorem Object.isMarked_of_marked {memory : Memory} {object : Nat}
    (clear : Object.marked memory object = 0) : Object.isMarked memory object = false := by
  rw [Object.isMarked, clear]
  rfl

/-- `memory'` differs from `memory` at most in the mark bytes of walked objects. -/
structure OnlyMarks (layout : Layout) (memory memory' : Memory) : Prop where
  other : ∀ a, (∀ object, layout.Walked object → a ≠ object + 8) → memory'.load a = memory.load a
  word : ∀ object, layout.Walked object →
    memory'.load (object + 8) / 256 = memory.load (object + 8) / 256

theorem OnlyMarks.refl (layout : Layout) (memory : Memory) : OnlyMarks layout memory memory :=
  ⟨fun _ _ => rfl, fun _ _ => rfl⟩

theorem OnlyMarks.trans {layout : Layout} {a b c : Memory} (first : OnlyMarks layout a b)
    (second : OnlyMarks layout b c) : OnlyMarks layout a c :=
  ⟨fun x h => (second.other x h).trans (first.other x h),
    fun o h => (second.word o h).trans (first.word o h)⟩

namespace BlockOk
variable {memory memory' : Memory} {headers headers' : Nat → LineHeader} {block : Nat}
  {layout : Layout} {free : List (Nat × Nat)} {extent : Nat → Nat}

/-- No walk reads the mark byte of an object. -/
theorem ne_markWord (ok : BlockOk memory headers block layout free extent) {object : Nat}
    (walked : layout.Walked object) :
    (∀ x, layout.Walked x → x ≠ object + 8) ∧
    ∀ i < lineCount, (headers i).containsObject = true →
      layout.finish i < Block.line block i + lineSize → layout.finish i ≠ object + 8 := by
  have large := (ok.extents object walked).1
  constructor
  · rintro x hx rfl
    have := (ok.extents _ hx).1
    have := ok.apart object (object + 8) walked hx (by omega)
    simp only [sizeofObject] at *
    omega
  · intro i bound has short same
    have := (ok.terminator i bound has short).1 object walked
    simp only [sizeofObject] at *
    omega

theorem onlyMarks (ok : BlockOk memory headers block layout free extent)
    (headers' : Nat → LineHeader)
    (marks : OnlyMarks layout memory memory')
    (contains : ∀ i, (headers' i).containsObject = (headers i).containsObject)
    (offsets : ∀ i < lineCount, (headers i).containsObject = true →
      (headers' i).getOffset = (headers i).getOffset) :
    BlockOk memory' headers' block layout free extent := by
  refine ok.congr ?_ ?_ contains offsets
  · intro x walked
    exact marks.other x fun o ho => (ok.ne_markWord ho).1 x walked
  · intro i bound has short
    exact marks.other _ fun o ho => (ok.ne_markWord ho).2 i bound has short

end BlockOk

/-! ## Unmarking -/

theorem load_unmarkAll (objects : List Nat) (memory : Memory) (a : Nat) :
    (objects.foldl Object.unmark memory).load a =
      if ∃ object ∈ objects, a = object + 8 then memory.load a / 256 * 256 else memory.load a := by
  induction objects generalizing memory with
  | nil => simp
  | cons object objects ih =>
    rw [List.foldl_cons, ih, Object.unmark, Object.load_setMarked]
    by_cases here : a = object + 8
    · subst here
      by_cases later : ∃ o ∈ objects, object + 8 = o + 8
      · rw [if_pos later, if_pos rfl, if_pos ⟨object, by simp, rfl⟩]
        omega
      · rw [if_neg later, if_pos rfl, if_pos ⟨object, by simp, rfl⟩]
        omega
    · simp [here]

theorem unmarkLine_eq {line finish : Nat} (objects : List Nat) (fuel offset : Nat) (memory : Memory)
    (walk : LineWalk memory line (line + offset) objects finish)
    (sized : ∀ object ∈ objects, sizeofObject ≤ Object.size memory object)
    (enough : lineSize ≤ fuel + offset) :
    Collector.unmarkLine line fuel offset memory = objects.foldl Object.unmark memory := by
  induction fuel generalizing offset objects memory with
  | zero =>
    cases objects with
    | nil => rfl
    | cons object objects =>
      obtain ⟨start, bound, -⟩ := walk.tail
      omega
  | succ fuel ih =>
    rw [Collector.unmarkLine]
    cases objects with
    | nil =>
      have start : line + offset = finish := Links.nil_iff.mp walk.path
      by_cases inside : offset < lineSize
      · have zero : Object.size memory (line + offset) = 0 := by
          rw [start]
          exact walk.ends.resolve_left (by omega)
        rw [if_pos inside, if_pos zero]
        rfl
      · rw [if_neg inside]
        rfl
    | cons object objects =>
      obtain ⟨start, bound, rest⟩ := walk.tail
      have positive := sized object (by simp)
      have grows : ∀ o ∈ objects, o < objectStop memory o := by
        intro o member
        have := sized o (by simp [member])
        simp only [objectStop, sizeofObject] at *
        omega
      obtain ⟨past, later⟩ := Links.within grows rest.path
      -- clearing the mark byte changes no size the rest of the walk reads
      have size : ∀ x, x ≠ object + 8 → Object.size (Object.unmark memory object) x =
          Object.size memory x := by
        intro x different
        rw [Object.size, Object.unmark, Object.load_setMarked, if_neg different]
        rfl
      have own : Object.size (Object.unmark memory object) object = Object.size memory object :=
        size object (by omega)
      simp only [objectStop, sizeofObject] at past later positive
      have rest' : LineWalk (Object.unmark memory object) line (objectStop memory object) objects finish := by
        refine ⟨rest.path.congr fun o member => ?_, rest.inLine, ?_⟩
        · have := (later o member).1
          rw [objectStop, objectStop, size o (by omega)]
        · rw [size finish (by omega)]
          exact rest.ends
      rw [start, if_pos (by omega), if_neg (by omega)]
      dsimp only
      rw [own]
      refine ih objects _ _ ?_ ?_ (by omega)
      · rw [← Nat.add_assoc, start]
        exact rest'
      · intro o member
        have := (later o member).1
        rw [size o (by omega)]
        exact sized o (by simp [member])

/-- The line loop of `Collector_unmarkSmallObjects`: `index` lines are done. -/
theorem unmarkLines_spec {memory : Memory} {header : Block} {block : Nat} {layout : Layout}
    {free : List (Nat × Nat)} {extent : Nat → Nat}
    (ok : BlockOk memory header.lineHeaders block layout free extent)
    (count index : Nat) (total : index + count = lineCount) (memory₁ : Memory) (header₁ : Block)
    (other : ∀ a, (∀ j < index, ∀ o ∈ layout.objects j, a ≠ o + 8) → memory₁.load a = memory.load a)
    (cleared : ∀ j < index, ∀ o ∈ layout.objects j,
      memory₁.load (o + 8) = memory.load (o + 8) / 256 * 256)
    (headers : header₁ = { header with
      lineHeaders := fun i => if i < index then (header.lineHeaders i).unmark else header.lineHeaders i }) :
    (∀ a, (∀ o, layout.Walked o → a ≠ o + 8) →
      (Collector.unmarkLines block count index (memory₁, header₁)).1.load a = memory.load a) ∧
    (∀ o, layout.Walked o →
      (Collector.unmarkLines block count index (memory₁, header₁)).1.load (o + 8) =
        memory.load (o + 8) / 256 * 256) ∧
    (Collector.unmarkLines block count index (memory₁, header₁)).2 = { header with
      lineHeaders := fun i =>
        if i < lineCount then (header.lineHeaders i).unmark else header.lineHeaders i } := by
  induction count generalizing index memory₁ header₁ with
  | zero =>
    obtain rfl : index = lineCount := by omega
    refine ⟨?_, ?_, headers⟩
    · intro a h
      exact other a fun j _ o member => h o ⟨j, member⟩
    · rintro o ⟨j, member⟩
      exact cleared j (ok.contains_of_mem member).1 o member
  | succ count ih =>
    have bound : index < lineCount := by omega
    rw [Collector.unmarkLines]
    have here : header₁.lineHeaders index = header.lineHeaders index := by
      rw [headers]
      simp
    have headersNext : header₁.setLineHeader index (header₁.lineHeaders index).unmark = { header with
        lineHeaders := fun i =>
          if i < index + 1 then (header.lineHeaders i).unmark else header.lineHeaders i } := by
      rw [here, headers, Block.setLineHeader]
      refine congrArg (fun l => { header with lineHeaders := l }) ?_
      funext i
      rw [store_apply]
      by_cases same : i = index
      · simp [same]
      · by_cases less : i < index
        · simp [same, less, Nat.lt_succ_of_lt less]
        · simp [same, less, show ¬ i < index + 1 by omega]
    have own : (header₁.setLineHeader index (header₁.lineHeaders index).unmark).lineHeaders index =
        (header.lineHeaders index).unmark := by
      rw [headersNext]
      simp
    have apart : ∀ j < index, ∀ o ∈ layout.objects j, ∀ o' ∈ layout.objects index, o + 8 ≠ o' + 8 := by
      rintro j less o member o' member' same
      obtain rfl : o = o' := by omega
      have := ok.line_unique member member'
      omega
    rw [own, LineHeader.containsObject_unmark, LineHeader.getOffset_unmark]
    by_cases has : (header.lineHeaders index).containsObject = true
    · rw [if_pos has]
      have marks : OnlyMarks layout memory memory₁ := by
        refine ⟨fun a h => other a fun j _ o member => h o ⟨j, member⟩, ?_⟩
        rintro o ⟨j, member⟩
        by_cases done : j < index
        · rw [cleared j done o member]
          omega
        · rw [other (o + 8)]
          intro j' less o' member' same
          obtain rfl : o = o' := by omega
          have := ok.line_unique member member'
          omega
      have ok₁ := ok.onlyMarks header.lineHeaders marks (fun _ => rfl) (fun _ _ _ => rfl)
      obtain ⟨walk, -⟩ := ok₁.walk index bound has
      rw [unmarkLine_eq _ _ _ _ walk (fun o member => (ok₁.shape o ⟨index, member⟩).2.1) (by omega)]
      refine ih (index + 1) (by omega) _ _ ?_ ?_ headersNext
      · intro a h
        rw [load_unmarkAll, if_neg, other a fun j less => h j (by omega)]
        rintro ⟨o, member, same⟩
        exact h index (by omega) o member same
      · intro j less o member
        rw [load_unmarkAll]
        rcases Nat.lt_succ_iff_lt_or_eq.mp less with before | rfl
        · rw [if_neg, cleared j before o member]
          rintro ⟨o', member', same⟩
          exact apart j before o member o' member' same
        · rw [if_pos ⟨o, member, rfl⟩, other]
          intro j' less' o' member' same
          exact apart j' less' o' member' o member same.symm
    · rw [if_neg has]
      have nothing : layout.objects index = [] := ok.absent index fun h => has h.2
      refine ih (index + 1) (by omega) _ _ ?_ ?_ headersNext
      · exact fun a h => other a fun j less => h j (by omega)
      · intro j less o member
        rcases Nat.lt_succ_iff_lt_or_eq.mp less with before | rfl
        · exact cleared j before o member
        · rw [nothing] at member
          cases member

/-- `Collector_unmarkSmallObjects` on one block clears the mark byte of every walked object. -/
theorem BlockOk.clear_marks {memory : Memory} {header : Block} {block : Nat} {layout : Layout}
    {free : List (Nat × Nat)} {extent : Nat → Nat}
    (ok : BlockOk memory header.lineHeaders block layout free extent) {memory' : Memory}
    {header' : Block}
    (run : Collector.unmarkLines block lineCount 0 (memory, header) = (memory', header')) :
    BlockOk memory' header'.lineHeaders block layout free extent ∧
    OnlyMarks layout memory memory' ∧
    (∀ object, layout.Walked object → Object.marked memory' object = 0) ∧
    header' = { header with
      lineHeaders := fun i =>
        if i < lineCount then (header.lineHeaders i).unmark else header.lineHeaders i } := by
  obtain ⟨other, cleared, headers⟩ := unmarkLines_spec ok lineCount 0 (by omega) memory header
    (fun _ _ => rfl) (fun j less => absurd less (Nat.not_lt_zero j)) (by simp)
  rw [run] at other cleared headers
  have marks : OnlyMarks layout memory memory' := by
    refine ⟨other, fun object walked => ?_⟩
    have := cleared object walked
    dsimp only at this
    omega
  refine ⟨ok.onlyMarks _ marks ?_ ?_, marks, ?_, headers⟩
  · intro i
    dsimp only at headers
    rw [headers]
    dsimp only
    split <;> simp
  · intro i bound _
    dsimp only at headers
    rw [headers]
    simp [bound]
  · intro object walked
    have := cleared object walked
    dsimp only at this
    rw [Object.marked, this]
    omega

theorem BlockOk.unmark {memory : Memory} {header : Block} {block : Nat} {layout : Layout}
    {free : List (Nat × Nat)} {extent : Nat → Nat}
    (ok : BlockOk memory header.lineHeaders block layout free extent) {memory' : Memory}
    {header' : Block}
    (run : Collector.unmarkLines block lineCount 0 (memory, header) = (memory', header')) :
    BlockOk memory' header'.lineHeaders block layout free extent ∧
    OnlyMarks layout memory memory' ∧
    (∀ object, layout.Walked object → Object.isMarked memory' object = false) ∧
    header' = { header with
      lineHeaders := fun i =>
        if i < lineCount then (header.lineHeaders i).unmark else header.lineHeaders i } := by
  obtain ⟨ok', only, clear, headers⟩ := ok.clear_marks run
  exact ⟨ok', only, fun object walked => Object.isMarked_of_marked (clear object walked), headers⟩

/-! ## Marking -/

/-- The lines that marking an object in line `i` marks. -/
def MarksLine (block i object size j : Nat) : Prop :=
  j = i ∨ (lineSize < size ∧ i < j ∧ Block.line block j < object + size)

instance (block i object size j : Nat) : Decidable (MarksLine block i object size j) :=
  inferInstanceAs (Decidable (_ ∨ _))

/-- An object whose lines a sweep will keep out of holes. -/
def Guarded (headers : Nat → LineHeader) (block i object size : Nat) : Prop :=
  ∀ j, MarksLine block i object size j → (headers j).isMarked = true

/-- The `do ... while` loop over the lines of a large object. -/
theorem markLines_eq (block limit : Nat) (fuel index : Nat) (header : Block)
    (enough : limit ≤ Block.line block (index + fuel)) (some : 0 < fuel) :
    Collector.markLines limit fuel index (Block.line block index) header = { header with
      lineHeaders := fun j =>
        if j = index ∨ (index < j ∧ Block.line block j < limit) then (header.lineHeaders j).mark
        else header.lineHeaders j } := by
  induction fuel generalizing index header with
  | zero => omega
  | succ fuel ih =>
    rw [Collector.markLines]
    have next : Block.line block index + lineSize = Block.line block (index + 1) := by
      simp only [Block.line, lineSize]
      omega
    have ordered : ∀ j, index < j → Block.line block (index + 1) ≤ Block.line block j := by
      intro j less
      simp only [Block.line, lineSize]
      omega
    rw [next]
    by_cases more : Block.line block (index + 1) < limit
    · rw [if_pos more]
      have left : 0 < fuel := by
        rcases Nat.eq_zero_or_pos fuel with rfl | positive
        · rw [Nat.zero_add] at enough
          omega
        · exact positive
      rw [ih (index + 1) _ (by rw [Nat.add_right_comm]; exact enough) left]
      refine congrArg (fun l => { header with lineHeaders := l }) ?_
      funext j
      simp only [Block.setLineHeader, store_apply]
      by_cases same : j = index
      · subst same
        rw [if_neg (by omega), if_pos rfl, if_pos (Or.inl rfl)]
      · rw [if_neg same]
        by_cases after : index < j
        · by_cases reached : Block.line block j < limit
          · rw [if_pos (by omega), if_pos (Or.inr ⟨after, reached⟩)]
          · have : j ≠ index + 1 := by
              rintro rfl
              exact reached more
            rw [if_neg (by omega), if_neg (by omega)]
        · rw [if_neg (by omega), if_neg (by omega)]
    · rw [if_neg more]
      refine congrArg (fun l => { header with lineHeaders := l }) ?_
      funext j
      rw [store_apply]
      by_cases same : j = index
      · rw [if_pos same, if_pos (Or.inl same), same]
      · rw [if_neg same, if_neg]
        rintro (here | ⟨after, reached⟩)
        · exact same here
        · have := ordered j after
          omega

/-- What marking an object does to its block. -/
theorem markSmallObject_eq {memory : Memory} (header : Block) {block i object : Nat}
    (place : Block.line block i ≤ object ∧ object < Block.line block i + lineSize)
    (small : Object.size memory object ≤ largeObjectSize) :
    Collector.markSmallObject memory header block i object =
      (Object.mark memory object, { header with
        marked := 1
        lineHeaders := fun j => if MarksLine block i object (Object.size memory object) j
          then (header.lineHeaders j).mark else header.lineHeaders j }) := by
  rw [Collector.markSmallObject]
  dsimp only
  refine congrArg (Prod.mk _) ?_
  by_cases inLine : Object.size memory object ≤ lineSize
  · rw [if_pos inLine, Block.setLineHeader]
    refine congrArg (fun l => { header with marked := 1, lineHeaders := l }) ?_
    funext j
    rw [store_apply]
    by_cases same : j = i
    · have covered : MarksLine block i object (Object.size memory object) j := Or.inl same
      rw [if_pos same, if_pos covered, same]
    · rw [if_neg same, if_neg]
      rintro (here | ⟨large, -⟩)
      · exact same here
      · omega
  · rw [if_neg inLine, markLines_eq block _ lineCount i _ ?_ (by decide)]
    · refine congrArg (fun l => { header with marked := 1, lineHeaders := l }) ?_
      funext j
      simp only [MarksLine]
      refine if_congr ?_ rfl rfl
      constructor
      · rintro (same | ⟨after, reached⟩)
        · exact Or.inl same
        · exact Or.inr ⟨by omega, after, reached⟩
      · rintro (same | ⟨-, after, reached⟩)
        · exact Or.inl same
        · exact Or.inr ⟨after, reached⟩
    · simp only [Block.line, Block.start, lineSize, lineCount, largeObjectSize] at *
      omega

/-- Marked objects are guarded, and so is their block. -/
structure MarksOk (memory : Memory) (header : Block) (block : Nat) (layout : Layout) : Prop where
  guarded : ∀ i, ∀ object ∈ layout.objects i, Object.isMarked memory object = true →
    Guarded header.lineHeaders block i object (Object.size memory object)
  block : ∀ object, layout.Walked object → Object.isMarked memory object = true →
    header.isMarked = true

namespace BlockOk
variable {memory : Memory} {header : Block} {block : Nat} {layout : Layout}
  {free : List (Nat × Nat)} {extent : Nat → Nat}

theorem onlyMarks_setMarked {object : Nat} (walked : layout.Walked object) (value : Nat)
    (byte : value < 256) : OnlyMarks layout memory (Object.setMarked memory object value) := by
  refine ⟨fun a h => ?_, fun x _ => ?_⟩
  · rw [Object.load_setMarked, if_neg (h object walked)]
  · rw [Object.load_setMarked]
    split
    · next same =>
      rw [same]
      omega
    · rfl

/-- Marking an object that a walk visits. -/
theorem mark (ok : BlockOk memory header.lineHeaders block layout free extent) {i object : Nat}
    (member : object ∈ layout.objects i) (marks : MarksOk memory header block layout)
    {memory' : Memory} {header' : Block}
    (run : Collector.markSmallObject memory header block i object = (memory', header')) :
    BlockOk memory' header'.lineHeaders block layout free extent ∧
    MarksOk memory' header' block layout ∧ OnlyMarks layout memory memory' ∧
    (∀ x, layout.Walked x → Object.isMarked memory' x =
      if x = object then true else Object.isMarked memory x) := by
  have walked : layout.Walked object := ⟨i, member⟩
  have place := ok.in_line member
  have shape := ok.shape object walked
  rw [markSmallObject_eq header ⟨by omega, place.2⟩ shape.2.2.1, Prod.mk.injEq] at run
  obtain ⟨rfl, rfl⟩ := run
  have only : OnlyMarks layout memory (Object.mark memory object) :=
    onlyMarks_setMarked walked 1 (by decide)
  have ok' := ok.onlyMarks (fun j =>
      if MarksLine block i object (Object.size memory object) j then (header.lineHeaders j).mark
      else header.lineHeaders j) only
    (fun j => by split <;> simp) (fun j _ _ => by split <;> simp)
  have sizes : ∀ x, layout.Walked x → Object.size (Object.mark memory object) x =
      Object.size memory x := fun x hx => only.other x fun o ho => (ok.ne_markWord ho).1 x hx
  have marked : ∀ x, layout.Walked x → Object.isMarked (Object.mark memory object) x =
      if x = object then true else Object.isMarked memory x := by
    intro x hx
    by_cases same : x = object
    · rw [if_pos same, same]
      exact Object.isMarked_mark memory object
    · rw [if_neg same]
      refine Object.isMarked_congr ?_
      rw [Object.mark, Object.load_setMarked, if_neg (by omega)]
  refine ⟨ok', ⟨?_, fun _ _ _ => rfl⟩, only, marked⟩
  intro k x hx isMarked j covered
  rw [sizes x ⟨k, hx⟩] at covered
  dsimp only
  by_cases same : x = object
  · subst same
    obtain rfl := ok.line_unique hx member
    rw [if_pos covered]
    exact LineHeader.isMarked_mark _
  · rw [marked x ⟨k, hx⟩, if_neg same] at isMarked
    have already := marks.guarded k x hx isMarked j covered
    split
    · exact LineHeader.isMarked_mark _
    · exact already

/-- After unmarking, nothing is marked. -/
theorem marksOk_of_unmarked (unmarked : ∀ object, layout.Walked object →
    Object.isMarked memory object = false) : MarksOk memory header block layout := by
  refine ⟨fun i object member marked => ?_, fun object walked marked => ?_⟩
  · rw [unmarked object ⟨i, member⟩] at marked
    cases marked
  · rw [unmarked object walked] at marked
    cases marked

end BlockOk

/-- No line that may become a hole, an unmarked one behind an unmarked one, meets the object. -/
def AvoidsHoles (headers : Nat → LineHeader) (block object size : Nat) : Prop :=
  ∀ h, 1 ≤ h → (headers h).isMarked = false → (headers (h - 1)).isMarked = false →
    object + size ≤ Block.line block h ∨ Block.line block (h + 1) ≤ object

theorem Guarded.avoids {headers : Nat → LineHeader} {block i object size : Nat}
    (guarded : Guarded headers block i object size)
    (low : Block.line block i ≤ object) (high : object < Block.line block i + lineSize) :
    AvoidsHoles headers block object size := by
  intro h later unmarked previous
  by_contra overlap
  have first := guarded i (Or.inl rfl)
  have notFirst : h ≠ i ∧ h - 1 ≠ i := by
    refine ⟨?_, ?_⟩
    · rintro rfl
      rw [unmarked] at first
      cases first
    · rintro rfl
      rw [previous] at first
      cases first
  have large : lineSize < size ∧ i < h ∧ Block.line block h < object + size := by
    simp only [Block.line, Block.start, lineSize] at *
    omega
  have covered := guarded h (Or.inr large)
  rw [unmarked] at covered
  cases covered

end ImmixGc.Guarantees
