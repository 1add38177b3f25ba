import ImmixGc.Foundation.Linked
import ImmixGc.Source.GlobalAllocator

/-!
# Lists of blocks

A `BlockList` links block headers through their `next` field. `Listed` names the blocks of
a list; pushing and shifting change the headers of other blocks in no way.
-/
namespace ImmixGc.Guarantees
open Source Foundation

/-- `list` holds `items`, in this order. `last` is stale in an empty list. -/
structure Listed (block : Nat → Block) (list : BlockList) (items : List Nat) : Prop where
  links : Links (fun item => (block item).next) list.first items null
  last : ∀ item, items.getLast? = some item → list.last = item
  absent : null ∉ items
  nodup : items.Nodup

/-- Two headers differ at most in `next`. -/
def SameBlock (x y : Block) : Prop := { x with next := null } = { y with next := null }

namespace SameBlock
variable {x y z : Block}

theorem refl (x : Block) : SameBlock x x := rfl

theorem trans (left : SameBlock x y) (right : SameBlock y z) : SameBlock x z := Eq.trans left right

theorem marked (same : SameBlock x y) : x.marked = y.marked := by
  simp only [SameBlock, Block.mk.injEq] at same
  exact same.1

theorem flag (same : SameBlock x y) : x.flag = y.flag := by
  simp only [SameBlock, Block.mk.injEq] at same
  exact same.2.1

theorem firstFreeLineIndex (same : SameBlock x y) : x.firstFreeLineIndex = y.firstFreeLineIndex := by
  simp only [SameBlock, Block.mk.injEq] at same
  exact same.2.2.1

theorem lineHeaders (same : SameBlock x y) : x.lineHeaders = y.lineHeaders := by
  simp only [SameBlock, Block.mk.injEq] at same
  exact same.2.2.2.2

end SameBlock

namespace Listed
variable {block block' : Nat → Block} {list : BlockList} {items : List Nat} {item : Nat}

theorem empty (block : Nat → Block) : Listed block BlockList.clear [] :=
  ⟨rfl, by simp, by simp, by simp⟩

theorem isEmpty_iff (listed : Listed block list items) : list.isEmpty = true ↔ items = [] := by
  rw [BlockList.isEmpty, beq_iff_eq]
  exact listed.links.start_eq_end_iff listed.absent

/-- Only the links of the listed blocks matter. -/
theorem congr (listed : Listed block list items)
    (same : ∀ x ∈ items, (block' x).next = (block x).next) : Listed block' list items :=
  ⟨listed.links.congr same, listed.last, listed.absent, listed.nodup⟩

/-- `BlockList_push` appends. -/
theorem push (listed : Listed block list items) (fresh : item ∉ items) (some : item ≠ null) :
    Listed (list.push block item).1 (list.push block item).2 (items ++ [item]) := by
  have absent : null ∉ items ++ [item] := by
    simpa using ⟨listed.absent, Ne.symm some⟩
  have nodup : (items ++ [item]).Nodup :=
    List.Nodup.append listed.nodup (by simp) (by simpa using fresh)
  rcases List.eq_nil_or_concat items with rfl | ⟨front, last, rfl⟩
  · have empty : list.isEmpty = true := listed.isEmpty_iff.mpr rfl
    simp only [BlockList.push, if_pos empty]
    exact ⟨⟨rfl, by simp⟩, by simp, absent, nodup⟩
  · rw [List.concat_eq_append] at *
    have nonempty : ¬ list.isEmpty = true := by
      rw [listed.isEmpty_iff]
      simp
    have lastEq : list.last = last := listed.last last (by simp)
    have other : last ≠ item := by
      rintro rfl
      exact fresh (by simp)
    obtain ⟨front', lastNext⟩ := Links.split.mp listed.links
    simp only [BlockList.push, if_neg nonempty]
    refine ⟨?_, by simp, absent, nodup⟩
    rw [List.append_assoc, List.singleton_append, Links.split]
    refine ⟨front'.congr fun x member => ?_, ?_, ?_⟩
    · have notLast : x ≠ last := by
        rintro rfl
        exact (List.nodup_append.mp listed.nodup).2.2 x member x (by simp) rfl
      have notItem : x ≠ item := by
        rintro rfl
        exact fresh (by simp [member])
      rw [lastEq, store_other _ _ _ _ notLast, store_other _ _ _ _ notItem]
    · rw [lastEq, store_same]
    · rw [Links.nil_iff]
      dsimp only
      rw [lastEq, store_other _ _ _ _ (Ne.symm other), store_same]

/-- `BlockList_push` changes links only. -/
theorem push_same (block : Nat → Block) (list : BlockList) (item x : Nat) :
    SameBlock ((list.push block item).1 x) (block x) := by
  have cleared : SameBlock (store block item { block item with next := null } x) (block x) := by
    rw [store_apply]
    split
    · next same => exact same ▸ rfl
    · rfl
  simp only [BlockList.push]
  split
  · exact cleared
  · dsimp only
    rw [store_apply]
    split
    · next same => exact same ▸ SameBlock.trans rfl cleared
    · exact cleared

/-- `BlockList_push` leaves the headers of blocks that are not in the list alone. -/
theorem push_other (listed : Listed block list items) {x : Nat} (outside : x ∉ items)
    (different : x ≠ item) : (list.push block item).1 x = block x := by
  simp only [BlockList.push]
  split
  · exact store_other _ _ _ _ different
  · next nonempty =>
    dsimp only
    rw [store_other, store_other _ _ _ _ different]
    intro same
    rcases List.eq_nil_or_concat items with rfl | ⟨front, last, rfl⟩
    · exact nonempty (listed.isEmpty_iff.mpr rfl)
    · rw [List.concat_eq_append] at *
      have := listed.last last (by simp)
      exact outside (by simp [same, this])

/-- `BlockList_shift` takes the first block off. -/
theorem shift_cons (listed : Listed block list (item :: items)) :
    (list.shift block).1 = item ∧ Listed block (list.shift block).2 items := by
  obtain ⟨first, rest⟩ := listed.links
  have some : list.first ≠ null := by
    rw [first]
    rintro rfl
    exact listed.absent (by simp)
  simp only [BlockList.shift, if_pos some]
  refine ⟨first, by rw [first]; exact rest, fun x last => ?_, ?_, ?_⟩
  · refine listed.last x ?_
    cases items with
    | nil => cases last
    | cons y ys => rw [List.getLast?_cons_cons]; exact last
  · exact fun h => listed.absent (by simp [h])
  · exact (List.nodup_cons.mp listed.nodup).2

theorem shift_nil (listed : Listed block list []) : list.shift block = (null, list) := by
  have none : list.first = null := listed.links
  rw [BlockList.shift, if_neg (fun h => h none)]

end Listed

/-- `BlockList_push` for each block in turn. -/
theorem pushBlocks_listed (pushed : List Nat) {block : Nat → Block} {list : BlockList}
    {items : List Nat} (listed : Listed block list items) (fresh : ∀ b ∈ pushed, b ∉ items)
    (distinct : pushed.Nodup) (some : null ∉ pushed) :
    Listed (GlobalAllocator.pushBlocks block list pushed).1
        (GlobalAllocator.pushBlocks block list pushed).2 (items ++ pushed) ∧
      ∀ x, x ∉ items → x ∉ pushed →
        (GlobalAllocator.pushBlocks block list pushed).1 x = block x := by
  induction pushed generalizing block list items with
  | nil => exact ⟨by rwa [List.append_nil], fun _ _ _ => rfl⟩
  | cons item rest ih =>
    have outside : item ∉ items := fresh item List.mem_cons_self
    have started : Listed (store block item Block.init) list items :=
      listed.congr fun x member => by
        rw [store_other]
        rintro rfl
        exact outside member
    obtain ⟨listed', others⟩ := ih
      (started.push outside fun same => some (same ▸ List.mem_cons_self))
      (fun b member => by
        rw [List.mem_append, List.mem_singleton]
        rintro (old | rfl)
        · exact fresh b (List.mem_cons_of_mem _ member) old
        · exact (List.nodup_cons.mp distinct).1 member)
      (List.nodup_cons.mp distinct).2 (fun member => some (List.mem_cons_of_mem _ member))
    rw [List.append_assoc, List.singleton_append] at listed'
    refine ⟨listed', fun x notItems notPushed => ?_⟩
    rw [List.mem_cons, not_or] at notPushed
    rw [GlobalAllocator.pushBlocks]
    refine (others x ?_ notPushed.2).trans ?_
    · rw [List.mem_append, List.mem_singleton, not_or]
      exact ⟨notItems, notPushed.1⟩
    · rw [started.push_other notItems notPushed.1, store_other _ _ _ _ notPushed.1]

theorem pushBlocks_same (pushed : List Nat) (block : Nat → Block) (list : BlockList) (b : Nat) :
    SameBlock ((GlobalAllocator.pushBlocks block list pushed).1 b)
      (if b ∈ pushed then Block.init else block b) := by
  induction pushed generalizing block list with
  | nil =>
    rw [if_neg List.not_mem_nil]
    exact SameBlock.refl _
  | cons item rest ih =>
    rw [GlobalAllocator.pushBlocks]
    refine (ih _ _).trans ?_
    by_cases later : b ∈ rest
    · rw [if_pos later, if_pos (List.mem_cons_of_mem _ later)]
      exact SameBlock.refl _
    · rw [if_neg later]
      refine (Listed.push_same _ _ _ b).trans ?_
      rw [store_apply]
      by_cases here : b = item
      · rw [if_pos here, if_pos (here ▸ List.mem_cons_self)]
        exact SameBlock.refl _
      · rw [if_neg here, if_neg (fun member => (List.mem_cons.mp member).elim here later)]
        exact SameBlock.refl _

end ImmixGc.Guarantees
