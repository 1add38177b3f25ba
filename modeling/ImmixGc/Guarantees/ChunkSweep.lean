import Mathlib.Data.List.Destutter
import ImmixGc.Guarantees.ChunkTiling

/-!
# Sweeping a chunk list in address order

`ChunkList_sweep` on any list whose chunks are in address order, whether they tile the heap
or not: each run of unmarked chunks is replaced by its first chunk, which is free.
-/
namespace ImmixGc.Guarantees
open Source Foundation Tiling

/-- A well-formed chunk list whose chunk headers are in address order. -/
structure AddressOrder (list : ChunkList) (chunks : List Nat) : Prop where
  linked : Links (fun chunk => (list.chunk chunk).next) list.first chunks null
  ordered : chunks.Pairwise fun a b => a + sizeofChunk ≤ b
  bounded : ∀ chunk ∈ chunks, chunk ≠ null ∧ chunk + sizeofChunk ≤ sizeModulus
  last : list.last = chunks.getLastD null
  size : list.size = chunks.length

def marks (list : ChunkList) (chunk : Nat) : Bool := (list.chunk chunk).isMarked

/-- Neighbours that belong to different runs. -/
def Separated (marked : Nat → Bool) (a b : Nat) : Prop := marked a = true ∨ marked b = true

instance (marked : Nat → Bool) : DecidableRel (Separated marked) :=
  fun _ _ => inferInstanceAs (Decidable (_ ∨ _))

/-- The chunks that are marked or first in a run of unmarked ones. -/
def runStarts (marked : Nat → Bool) (chunks : List Nat) : List Nat :=
  chunks.destutter (Separated marked)

section RunStarts
variable {marked : Nat → Bool} {chunk : Nat} {run rest : List Nat}

theorem runStarts_marked (isMarked : marked chunk = true) :
    runStarts marked (chunk :: rest) = chunk :: runStarts marked rest := by
  cases rest with
  | nil => rfl
  | cons next rest => exact List.destutter'_cons_pos _ (Or.inl isMarked)

/-- A run of unmarked chunks counts as its first one. -/
theorem runStarts_run (unmarked : ∀ c ∈ chunk :: run, marked c = false)
    (ends : ∀ c ∈ rest.head?, marked c = true) :
    runStarts marked (chunk :: (run ++ rest)) = chunk :: runStarts marked rest := by
  induction run with
  | nil =>
    cases rest with
    | nil => rfl
    | cons next rest => exact List.destutter'_cons_pos _ (Or.inr (ends next rfl))
  | cons c run ih =>
    have pair : ¬ Separated marked chunk c := by
      simp [Separated, unmarked chunk (by simp), unmarked c (by simp)]
    have unmarked' : ∀ d ∈ chunk :: run, marked d = false := by
      intro d member
      rcases List.mem_cons.mp member with rfl | later
      · exact unmarked d (by simp)
      · exact unmarked d (by simp [later])
    rw [← ih unmarked']
    exact List.destutter'_cons_neg _ pair

theorem runStarts_eq_nil : runStarts marked rest = [] ↔ rest = [] := List.destutter_eq_nil _

theorem mem_runStarts {c : Nat} (member : c ∈ rest) (isMarked : marked c = true) :
    c ∈ runStarts marked rest := by
  -- by induction on the chunks behind the last one kept
  have behind : ∀ (rest : List Nat) (last : Nat), c ∈ rest →
      c ∈ rest.destutter' (Separated marked) last := by
    intro rest
    induction rest with
    | nil => intro _ member; cases member
    | cons chunk rest ih =>
      intro last member
      by_cases split : Separated marked last chunk
      · rw [List.destutter'_cons_pos _ split]
        rcases List.mem_cons.mp member with rfl | later
        · exact List.mem_cons_of_mem _ (List.mem_destutter' _ _ _)
        · exact List.mem_cons_of_mem _ (ih chunk later)
      · rw [List.destutter'_cons_neg _ split]
        rcases List.mem_cons.mp member with rfl | later
        · exact absurd (Or.inr isMarked) split
        · exact ih last later
  cases rest with
  | nil => cases member
  | cons chunk rest =>
    rcases List.mem_cons.mp member with rfl | later
    · exact List.mem_destutter' _ _ _
    · exact behind rest chunk later

theorem getLastD_cons_of_ne_nil {l : List Nat} (some : l ≠ []) (x d : Nat) :
    (x :: l).getLastD d = l.getLastD d := by
  cases l with
  | nil => exact absurd rfl some
  | cons y l => rfl

theorem runStarts_subset {c : Nat} (member : c ∈ runStarts marked rest) : c ∈ rest :=
  (List.destutter_sublist _ rest).subset member

end RunStarts

/-- Chunks in address order are few. -/
theorem length_le_of_ordered {chunks : List Nat} {stop : Nat} (low : Nat)
    (ordered : chunks.Pairwise fun a b => a + sizeofChunk ≤ b)
    (bounded : ∀ chunk ∈ chunks, low ≤ chunk ∧ chunk + sizeofChunk ≤ stop) (within : low ≤ stop) :
    low + chunks.length * sizeofChunk ≤ stop := by
  induction chunks generalizing low with
  | nil => simpa using within
  | cons chunk chunks ih =>
    obtain ⟨before, ordered⟩ := List.pairwise_cons.mp ordered
    obtain ⟨above, fits⟩ := bounded chunk (by simp)
    have := ih (chunk + sizeofChunk) ordered
      (fun c member => ⟨before c member, (bounded c (by simp [member])).2⟩) fits
    rw [List.length_cons, Nat.add_mul]
    omega

/-- What `ChunkList_merge` returns, when its assertion holds. -/
theorem merge_ok {list merged : ChunkList} {chunk limit count : Nat}
    (ends : ChunkList.merge list chunk limit count = .ok merged) :
    ∃ size, (limit ≠ null → size = sizeSub (sizeSub limit chunk) chunkHeaderSize) ∧
      merged = { list with
        chunk := store list.chunk chunk
          { list.chunk chunk with
            next := limit
            object := { (list.chunk chunk).object with size := size } }
        last := if limit = null then chunk else list.last
        size := sizeSub list.size count } := by
  rw [ChunkList.merge] at ends
  obtain ⟨-, -, ends⟩ := bind_eq_ok.mp ends
  refine ⟨_, fun some => ?_, (Except.ok.inj ends).symm⟩
  rw [if_neg some]

/-- What the sweep leaves of the unmarked chunk at the start of a run: it is free, and it
has grown to the next chunk of the new list when there were more chunks in its run. -/
structure Freed (list list' : ChunkList) (chunk : Nat) : Prop where
  allocated : (list'.chunk chunk).allocated = 0
  unmarked : (list'.chunk chunk).isMarked = false
  single : (list'.chunk chunk).next = (list.chunk chunk).next →
    list'.chunk chunk = { list.chunk chunk with allocated := 0 }
  run : (list'.chunk chunk).next ≠ (list.chunk chunk).next → (list'.chunk chunk).next ≠ null →
    chunkStop list' chunk = (list'.chunk chunk).next

theorem Freed.congr {list list' before after : ChunkList} {chunk : Nat} (freed : Freed list list' chunk)
    (sameBefore : before.chunk chunk = list.chunk chunk)
    (sameAfter : after.chunk chunk = list'.chunk chunk) : Freed before after chunk := by
  obtain ⟨allocated, unmarked, single, run⟩ := freed
  refine ⟨?_, ?_, ?_, ?_⟩
  · rw [sameAfter]
    exact allocated
  · rw [sameAfter]
    exact unmarked
  · rw [sameAfter, sameBefore]
    exact single
  · rw [chunkStop, sameAfter, sameBefore]
    exact run

/-- What sweeping from `chunk` does, `rest` being the chunks from there on. -/
structure SweptRest (list list' : ChunkList) (chunk : Nat) (rest : List Nat) : Prop where
  linked : Links (fun c => (list'.chunk c).next) chunk (runStarts (marks list) rest) null
  kept : ∀ c ∈ rest, marks list c = true → list'.chunk c = list.chunk c
  freed : ∀ c ∈ runStarts (marks list) rest, marks list c = false → Freed list list' c
  frame : ∀ c, c ∉ rest → list'.chunk c = list.chunk c
  first : list'.first = list.first
  last : list'.last = (runStarts (marks list) rest).getLastD list.last
  size : list'.size + rest.length = list.size + (runStarts (marks list) rest).length

/-- The list after an unmarked chunk was freed and the unmarked `run` behind it merged into it. -/
structure Absorbed (list middle : ChunkList) (chunk limit : Nat) (run rest : List Nat) : Prop where
  other : ∀ c, c ≠ chunk → middle.chunk c = list.chunk c
  next : (middle.chunk chunk).next = limit
  freed : Freed list middle chunk
  first : middle.first = list.first
  last : middle.last = if rest = [] then chunk else list.last
  size : middle.size + run.length = list.size

theorem Absorbed.single {list : ChunkList} {chunk limit : Nat} {rest : List Nat}
    (unmarked : (list.chunk chunk).isMarked = false) (atNext : limit = (list.chunk chunk).next)
    (last : rest = [] → list.last = chunk) :
    Absorbed list (freeChunk list chunk) chunk limit [] rest := by
  refine ⟨fun c different => freeChunk_other list different, ?_, ⟨?_, ?_, ?_, ?_⟩, rfl, ?_, rfl⟩
  · rw [freeChunk_next, atNext]
  · rw [freeChunk_same]
  · rw [freeChunk_isMarked, unmarked]
  · exact fun _ => freeChunk_same list chunk
  · exact fun moved => absurd (freeChunk_next list chunk chunk) moved
  · split
    · next none => exact last none
    · rfl

theorem Absorbed.merge {list merged : ChunkList} {chunk limit : Nat} {run rest : List Nat}
    (unmarked : (list.chunk chunk).isMarked = false) (moved : limit ≠ (list.chunk chunk).next)
    (limitNull : limit = null ↔ rest = [])
    (above : limit ≠ null → chunk + sizeofChunk ≤ limit ∧ limit < sizeModulus)
    (few : run.length ≤ list.size ∧ list.size < sizeModulus)
    (ends : ChunkList.merge (freeChunk list chunk) chunk limit run.length = .ok merged) :
    Absorbed list merged chunk limit run rest := by
  obtain ⟨size, sizeEq, rfl⟩ := merge_ok ends
  refine ⟨fun c different => ?_, ?_, ⟨?_, ?_, ?_, ?_⟩, rfl, ?_, ?_⟩
  · exact (store_other _ _ _ _ different).trans (freeChunk_other list different)
  · simp only [store_same]
  · simp only [store_same, freeChunk_same]
  · simp only [store_same, freeChunk_same]
    exact unmarked
  · simp only [store_same]
    exact fun same => absurd same moved
  · simp only [chunkStop, store_same]
    intro _ some
    have := above some
    rw [sizeEq some]
    simp only [sizeSub, sizeModulus, chunkHeaderSize, sizeofChunk] at *
    omega
  · simp only [limitNull]
    rfl
  · have : sizeSub list.size run.length = list.size - run.length := sizeSub_eq few.1 few.2
    show sizeSub list.size run.length + run.length = list.size
    omega

/-- Freeing the first chunk of a run, and sweeping what is behind the run. -/
theorem SweptRest.free {list list' middle : ChunkList} {chunk limit : Nat} {run rest : List Nat}
    (unmarked : ∀ c ∈ chunk :: run, marks list c = false)
    (ends : ∀ c ∈ rest.head?, marks list c = true) (fresh : chunk ∉ rest)
    (absorbed : Absorbed list middle chunk limit run rest)
    (swept : SweptRest middle list' limit rest) : SweptRest list list' chunk (chunk :: (run ++ rest)) := by
  have own : list'.chunk chunk = middle.chunk chunk := swept.frame chunk fresh
  have same : marks middle = marks list := by
    funext c
    by_cases here : c = chunk
    · rw [here, unmarked chunk (by simp)]
      exact absorbed.freed.unmarked
    · rw [marks, marks, absorbed.other c here]
  have inRest : ∀ c ∈ rest, middle.chunk c = list.chunk c := by
    intro c member
    exact absorbed.other c (by rintro rfl; exact fresh member)
  have starts : runStarts (marks list) (chunk :: (run ++ rest)) =
      chunk :: runStarts (marks list) rest := runStarts_run unmarked ends
  obtain ⟨linked, kept, freed, frame, first, last, size⟩ := swept
  rw [same] at linked kept freed last size
  refine ⟨?_, ?_, ?_, ?_, first.trans absorbed.first, ?_, ?_⟩
  · rw [starts]
    refine ⟨rfl, ?_⟩
    dsimp only
    rw [own, absorbed.next]
    exact linked
  · intro c member isMarked
    rcases List.mem_cons.mp member with rfl | later
    · rw [unmarked c (by simp)] at isMarked
      cases isMarked
    rcases List.mem_append.mp later with inRun | later
    · rw [unmarked c (by simp [inRun])] at isMarked
      cases isMarked
    · exact (kept c later isMarked).trans (inRest c later)
  · intro c member isUnmarked
    rw [starts] at member
    rcases List.mem_cons.mp member with rfl | later
    · exact absorbed.freed.congr rfl own
    · exact (freed c later isUnmarked).congr (inRest c (runStarts_subset later)).symm rfl
  · intro c outside
    rw [frame c fun member => outside (by simp [member]),
      absorbed.other c (by rintro rfl; simp at outside)]
  · rw [starts, last, absorbed.last]
    by_cases none : rest = []
    · subst none
      rfl
    · rw [if_neg none, getLastD_cons_of_ne_nil (mt runStarts_eq_nil.mp none)]
  · have := absorbed.size
    rw [starts]
    simp only [List.length_cons, List.length_append]
    omega

/-- The outer loop of `ChunkList_sweep`, by induction on its bound. -/
theorem sweepFrom_ordered (fuel chunk : Nat) {list list' : ChunkList} {rest : List Nat}
    (linked : Links (fun chunk => (list.chunk chunk).next) chunk rest null)
    (ordered : rest.Pairwise fun a b => a + sizeofChunk ≤ b)
    (bounded : ∀ c ∈ rest, c ≠ null ∧ c + sizeofChunk ≤ sizeModulus)
    (last : list.last = rest.getLastD list.last)
    (few : rest.length ≤ list.size ∧ list.size < sizeModulus)
    (ends : ChunkList.sweepFrom fuel chunk list = .ok list') : SweptRest list list' chunk rest := by
  induction fuel generalizing list chunk rest with
  | zero => cases ends
  | succ fuel ih =>
    have away : null ∉ rest := fun member => (bounded null member).1 rfl
    by_cases done : chunk = null
    · rw [ChunkList.sweepFrom, if_pos done, Except.ok.injEq] at ends
      have empty := (linked.start_eq_end_iff away).mp done
      subst empty ends
      exact ⟨linked, by simp, fun c member => absurd (runStarts_subset member) (by simp),
        fun _ _ => rfl, rfl, rfl, rfl⟩
    cases rest with
    | nil => exact absurd (Links.nil_iff.mp linked) done
    | cons head rest =>
    obtain ⟨rfl, linked⟩ := linked
    obtain ⟨before, ordered'⟩ := List.pairwise_cons.mp ordered
    have fresh : chunk ∉ rest := by
      intro member
      have := before chunk member
      simp only [sizeofChunk] at this
      omega
    cases marked : (list.chunk chunk).isMarked with
    | true =>
      -- a marked chunk is kept
      rw [ChunkList.sweepFrom, if_neg done, if_pos marked] at ends
      have last' : list.last = rest.getLastD list.last := by
        cases rest with
        | nil => rfl
        | cons next rest => simpa using last
      have swept := ih _ linked ordered' (fun c member => bounded c (by simp [member])) last'
        ⟨by have := few.1; rw [List.length_cons] at this; omega, few.2⟩ ends
      have starts : runStarts (marks list) (chunk :: rest) = chunk :: runStarts (marks list) rest :=
        runStarts_marked marked
      refine ⟨?_, ?_, ?_, ?_, swept.first, ?_, ?_⟩
      · rw [starts]
        refine ⟨rfl, ?_⟩
        have same := swept.frame chunk fresh
        dsimp only
        rw [same]
        exact swept.linked
      · intro c member isMarked
        rcases List.mem_cons.mp member with rfl | later
        · exact swept.frame c fresh
        · exact swept.kept c later isMarked
      · intro c member unmarked
        rw [starts] at member
        rcases List.mem_cons.mp member with rfl | later
        · rw [marks, marked] at unmarked
          cases unmarked
        · exact swept.freed c later unmarked
      · intro c outside
        exact swept.frame c fun member => outside (by simp [member])
      · rw [starts, swept.last]
        by_cases none : rest = []
        · subst none
          exact last
        · rw [getLastD_cons_of_ne_nil (mt runStarts_eq_nil.mp none)]
      · have := swept.size
        rw [starts, List.length_cons, List.length_cons]
        omega
    | false =>
      -- it is freed, with the run of unmarked chunks behind it
      have linkedFree : Links (fun c => ((freeChunk list chunk).chunk c).next)
          (list.chunk chunk).next rest null :=
        linked.congr fun c _ => freeChunk_next list chunk c
      rw [sweepFrom_unmarked fuel done marked] at ends
      rcases unmarkedRun_spec (freeChunk list chunk) rest fuel (list.chunk chunk).next 0 linkedFree
          (fun member => away (by simp [member])) with
        ⟨running, -⟩ | ⟨run, rest', limit, rfl, ended, linkedRun, linkedRest, unmarkedRun, endsRun⟩
      · rw [running, error_bind] at ends
        cases ends
      rw [ended, ok_bind, Nat.zero_add] at ends
      dsimp only at ends
      have unmarked : ∀ c ∈ chunk :: run, marks list c = false := by
        intro c member
        rcases List.mem_cons.mp member with rfl | later
        · exact marked
        · rw [marks, ← freeChunk_isMarked list chunk]
          exact unmarkedRun c later
      have endsRun' : ∀ c ∈ rest'.head?, marks list c = true := by
        intro c first
        rw [marks, ← freeChunk_isMarked list chunk]
        exact endsRun c first
      have freshRest : chunk ∉ rest' := fun member => fresh (by simp [member])
      have limitNull : limit = null ↔ rest' = [] :=
        linkedRest.start_eq_end_iff fun member => away (by simp [member])
      have length : run.length + rest'.length + 1 ≤ list.size := by
        have := few.1
        simp only [List.length_cons, List.length_append] at this
        omega
      have lastRest : rest' ≠ [] → list.last = rest'.getLastD list.last := by
        intro some
        obtain ⟨front, final, rfl⟩ : ∃ front final, rest' = front ++ [final] :=
          ⟨_, _, (List.dropLast_append_getLast some).symm⟩
        rw [List.getLastD_concat]
        rw [← List.append_assoc, ← List.cons_append, List.getLastD_concat] at last
        exact last
      obtain ⟨middle, absorbed, ran⟩ : ∃ middle, Absorbed list middle chunk limit run rest' ∧
          ChunkList.sweepFrom fuel limit middle = .ok list' := by
        by_cases moved : limit = (list.chunk chunk).next
        · rw [if_neg (not_not_intro moved)] at ends
          have single : run = [] := by
            cases run with
            | nil => rfl
            | cons next run =>
              have atNext : limit = next := moved.trans linkedRun.1
              cases rest' with
              | nil => exact absurd (by rw [← atNext, limitNull.mpr rfl]; simp) away
              | cons first rest' =>
                have both := (List.pairwise_append.mp ordered').2.2 next (by simp) first (by simp)
                rw [← atNext, ← linkedRest.1, sizeofChunk] at both
                omega
          subst single
          refine ⟨freeChunk list chunk, Absorbed.single marked moved fun none => ?_, ends⟩
          subst none
          exact last
        · rw [if_pos moved] at ends
          obtain ⟨merged, mergedEq, ends⟩ := bind_eq_ok.mp ends
          refine ⟨merged, Absorbed.merge marked moved limitNull (fun some => ?_) ⟨by omega, few.2⟩
            mergedEq, ends⟩
          cases rest' with
          | nil => exact absurd (limitNull.mpr rfl) some
          | cons first rest' =>
            rw [show limit = first from linkedRest.1]
            have := before first (by simp)
            have := (bounded first (by simp)).2
            simp only [sizeofChunk] at *
            omega
      refine SweptRest.free unmarked endsRun' freshRest absorbed (ih limit ?_ ?_ ?_ ?_ ?_ ran)
      · refine linkedRest.congr fun c member => ?_
        rw [absorbed.other c (by rintro rfl; exact freshRest member), freeChunk_next]
      · exact (List.pairwise_append.mp ordered').2.1
      · exact fun c member => bounded c (by simp [member])
      · by_cases none : rest' = []
        · rw [none]
          rfl
        · rw [absorbed.last, if_neg none]
          exact lastRest none
      · have := absorbed.size
        omega

/-- A list without neighbouring unmarked chunks whose unmarked chunks are free is swept
already. -/
theorem sweepFrom_fixed (fuel chunk : Nat) {list : ChunkList} {rest : List Nat}
    (linked : Links (fun chunk => (list.chunk chunk).next) chunk rest null) (away : null ∉ rest)
    (separated : rest.IsChain (Separated (marks list)))
    (free : ∀ c ∈ rest, marks list c = false → (list.chunk c).allocated = 0)
    (enough : rest.length < fuel) : ChunkList.sweepFrom fuel chunk list = .ok list := by
  induction fuel generalizing chunk rest with
  | zero => omega
  | succ fuel ih =>
    by_cases done : chunk = null
    · rw [ChunkList.sweepFrom, if_pos done]
    cases rest with
    | nil => exact absurd (Links.nil_iff.mp linked) done
    | cons head rest =>
    obtain ⟨rfl, linked⟩ := linked
    rw [List.length_cons] at enough
    have next := ih _ linked (fun member => away (by simp [member])) separated.tail
      (fun c member => free c (by simp [member])) (by omega)
    cases marked : (list.chunk chunk).isMarked with
    | true =>
      rw [ChunkList.sweepFrom, if_neg done, if_pos marked]
      exact next
    | false =>
      have same : freeChunk list chunk = list := by
        have zero := free chunk (by simp) marked
        have record : { list.chunk chunk with allocated := 0 } = list.chunk chunk := by
          rw [← zero]
        rw [freeChunk, record]
        have cells : store list.chunk chunk (list.chunk chunk) = list.chunk := by
          funext c
          rw [store_apply]
          split
          · next here => rw [here]
          · rfl
        rw [cells]
      obtain ⟨fuel, rfl⟩ : ∃ n, fuel = n + 1 := ⟨fuel - 1, by omega⟩
      have stops : ¬ ((list.chunk chunk).next ≠ null ∧
          (list.chunk (list.chunk chunk).next).isMarked = false) := by
        rintro ⟨some, unmarked⟩
        cases rest with
        | nil => exact some linked
        | cons following rest =>
          rw [show (list.chunk chunk).next = following from linked.1] at unmarked
          rcases separated.rel with this | other
          · rw [marks, marked] at this
            cases this
          · rw [marks, unmarked] at other
            cases other
      rw [sweepFrom_unmarked _ done marked, same, ChunkList.unmarkedRun, if_neg stops, ok_bind]
      dsimp only
      rw [if_neg (not_not_intro rfl)]
      exact next

/-- The sweep keeps exactly the marked chunks: the new list has one free chunk for each run of
unmarked ones, and sweeping it again changes nothing. -/
theorem sweep_keeps_marked {list list' : ChunkList} {chunks : List Nat} {fuel : Nat}
    (order : AddressOrder list chunks) (ends : ChunkList.sweep fuel list = .ok list') :
    AddressOrder list' (runStarts (marks list) chunks) ∧
    (∀ c ∈ chunks, marks list c = true →
      c ∈ runStarts (marks list) chunks ∧ list'.chunk c = list.chunk c) ∧
    (∀ c ∈ runStarts (marks list) chunks, marks list c = false → Freed list list' c) ∧
    (runStarts (marks list) chunks).IsChain (Separated (marks list')) ∧
    ∀ fuel', chunks.length < fuel' → ChunkList.sweep fuel' list' = .ok list' := by
  obtain ⟨linked, ordered, bounded, last, size⟩ := order
  have few := length_le_of_ordered 0 ordered
    (fun c member => ⟨Nat.zero_le c, (bounded c member).2⟩) (Nat.zero_le _)
  have swept := sweepFrom_ordered fuel list.first linked ordered bounded
    (by cases chunks <;> simp_all [List.getLastD]) ⟨size.ge, by
      rw [size]
      simp only [sizeofChunk, sizeModulus] at *
      omega⟩ ends
  have sublist : (runStarts (marks list) chunks).Sublist chunks := List.destutter_sublist _ _
  have same : ∀ c ∈ runStarts (marks list) chunks, marks list' c = marks list c := by
    intro c member
    cases isMarked : marks list c with
    | true => rw [marks, swept.kept c (sublist.subset member) isMarked, ← marks, isMarked]
    | false => exact (swept.freed c member isMarked).unmarked
  have separated : (runStarts (marks list) chunks).IsChain (Separated (marks list')) := by
    refine (List.isChain_destutter _ chunks).imp_of_mem_imp fun a b ha hb split => ?_
    rw [Separated, same a ha, same b hb]
    exact split
  have order' : AddressOrder list' (runStarts (marks list) chunks) := by
    refine ⟨?_, ordered.sublist sublist, fun c member => bounded c (sublist.subset member), ?_, ?_⟩
    · rw [swept.first]
      exact swept.linked
    · rw [swept.last, last]
      cases chunks with
      | nil => rfl
      | cons chunk chunks =>
        cases starts : runStarts (marks list) (chunk :: chunks) with
        | nil => exact absurd (runStarts_eq_nil.mp starts) (by simp)
        | cons first others => rfl
    · have := swept.size
      omega
  refine ⟨order', fun c member isMarked =>
    ⟨mem_runStarts member isMarked, swept.kept c member isMarked⟩, swept.freed, separated,
    fun fuel' enough => ?_⟩
  refine sweepFrom_fixed fuel' list'.first order'.linked
    (fun member => (order'.bounded null member).1 rfl) separated (fun c member unmarked => ?_) ?_
  · rw [same c member] at unmarked
    exact (swept.freed c member unmarked).allocated
  · have := sublist.length_le
    omega

/-- A run of two chunks in front of a marked one. -/
def runOfTwo : ChunkList :=
  { chunk := fun c =>
      if c = 0x1000 then ⟨0x1080, 1, ⟨112, 0, 0⟩⟩
      else if c = 0x1080 then ⟨0x1100, 1, ⟨112, 0, 1⟩⟩
      else ⟨null, 1, ⟨112, 1, 0⟩⟩
    first := 0x1000, last := 0x1100, size := 3 }

theorem runOfTwo_merges : ∃ list', ChunkList.sweep 4 runOfTwo = .ok list' ∧
    AddressOrder list' [0x1000, 0x1100] ∧ chunkStop list' 0x1000 = 0x1100 := by
  have order : AddressOrder runOfTwo [0x1000, 0x1080, 0x1100] :=
    ⟨⟨rfl, rfl, rfl, rfl⟩, by decide, by decide, rfl, rfl⟩
  have returns : (ChunkList.sweep 4 runOfTwo).map (fun _ => ()) = .ok () := by decide +kernel
  cases ends : ChunkList.sweep 4 runOfTwo with
  | error stop =>
    rw [ends] at returns
    cases returns
  | ok list' =>
  have starts : runStarts (marks runOfTwo) [0x1000, 0x1080, 0x1100] = [0x1000, 0x1100] := by decide
  obtain ⟨order', -, freed, -⟩ := sweep_keeps_marked order ends
  rw [starts] at order' freed
  have next : (list'.chunk 0x1000).next = 0x1100 := by
    have first : list'.first = 0x1000 := order'.linked.1
    have links := order'.linked
    rw [first] at links
    exact links.2.1
  refine ⟨list', rfl, order', ?_⟩
  have grown := (freed 0x1000 (by simp) (by decide)).run
  rw [next] at grown
  exact grown (by decide) (by decide)

/-- A chunk that does not reach up to the marked chunk behind it. -/
def gapBehind : ChunkList :=
  { chunk := fun c => if c = 0x1000 then ⟨0x2000, 1, ⟨112, 0, 0⟩⟩ else ⟨null, 1, ⟨112, 1, 0⟩⟩
    first := 0x1000, last := 0x2000, size := 2 }

/-- A run of one chunk keeps its size, also when the marked chunk is further away. -/
theorem gapBehind_stays : AddressOrder gapBehind [0x1000, 0x2000] ∧
    marks gapBehind 0x1000 = false ∧ marks gapBehind 0x2000 = true ∧
    (ChunkList.sweep 3 gapBehind).map (fun list' =>
      ((list'.chunk 0x1000).next, chunkStop list' 0x1000)) = .ok (0x2000, 0x1080) :=
  ⟨⟨⟨rfl, rfl, rfl⟩, by decide, by decide, rfl, rfl⟩, by decide, by decide, by decide +kernel⟩

end ImmixGc.Guarantees
