import ImmixGc.Foundation.Linked
import ImmixGc.Source.ChunkList

/-!
# Operations on a chunk list that tiles the large heap

`Tiling list start stop chunks` says that the links of `list` and the sizes of its chunks
tell the same story: both lead through `chunks`, the links from `first` to `NULL` and the
sizes from `start` to `stop`. Pushing, splitting and sweeping keep it.
-/
namespace ImmixGc.Guarantees
open Source Foundation

/-- Where a chunk ends. -/
def chunkStop (list : ChunkList) (chunk : Nat) : Nat :=
  chunk + chunkHeaderSize + (list.chunk chunk).object.size

structure Tiling (list : ChunkList) (start stop : Nat) (chunks : List Nat) : Prop where
  linked : Links (fun chunk => (list.chunk chunk).next) list.first chunks null
  tiled : Links (chunkStop list) start chunks stop
  last : chunks.getLast? = some list.last
  size : list.size = chunks.length
  positive : 0 < start
  bounded : stop ≤ sizeModulus

namespace Tiling
variable {list : ChunkList} {start stop : Nat} {chunks : List Nat}

theorem grows (list : ChunkList) (chunks : List Nat) :
    ∀ chunk ∈ chunks, chunk < chunkStop list chunk := by
  intro chunk _
  simp only [chunkStop, chunkHeaderSize]
  omega

theorem inside (tiling : Tiling list start stop chunks) {chunk : Nat} (member : chunk ∈ chunks) :
    start ≤ chunk ∧ chunkStop list chunk ≤ stop :=
  (Links.within (grows list chunks) tiling.tiled).2 chunk member

theorem nodup (tiling : Tiling list start stop chunks) : chunks.Nodup :=
  Links.nodup (grows list chunks) tiling.tiled

/-- Behind a chunk comes another one, or the end of the heap. -/
theorem stop_cases (tiling : Tiling list start stop chunks) {chunk : Nat} (member : chunk ∈ chunks) :
    chunkStop list chunk = stop ∨ chunkStop list chunk ∈ chunks :=
  tiling.tiled.end_cases member

/-- Two chunks of a tiling do not overlap. -/
theorem apart (tiling : Tiling list start stop chunks) {c chunk : Nat} (hc : c ∈ chunks)
    (member : chunk ∈ chunks) (different : c ≠ chunk) :
    chunkStop list c ≤ chunk ∨ chunkStop list chunk ≤ c := by
  obtain ⟨pre, post, rfl⟩ := List.append_of_mem member
  have ascending := Links.ascending (grows list _) tiling.tiled
  rw [List.pairwise_append, List.pairwise_cons] at ascending
  rcases List.mem_append.mp hc with before | after
  · exact Or.inl (ascending.2.2 c before chunk (by simp))
  · exact Or.inr (ascending.2.1.1 c ((List.mem_cons.mp after).resolve_left different))

theorem null_not_mem (tiling : Tiling list start stop chunks) : null ∉ chunks := by
  intro member
  have low := (tiling.inside member).1
  have positive := tiling.positive
  simp only [null] at low
  omega

/-- A list that dropped some of the chunks has none that is smaller. -/
theorem grown (tiling : Tiling list start stop chunks) {other : ChunkList} {fewer : List Nat}
    (tiling' : Tiling other start stop fewer) (subset : ∀ c ∈ fewer, c ∈ chunks) {chunk : Nat}
    (member : chunk ∈ fewer) : chunkStop list chunk ≤ chunkStop other chunk := by
  have grows' := grows other fewer chunk member
  rcases tiling'.stop_cases member with ends | next
  · rw [ends]
    exact (tiling.inside (subset chunk member)).2
  · rcases tiling.apart (subset chunk member) (subset _ next) (Nat.ne_of_lt grows') with before | after
    · exact before
    · have := grows list chunks _ (subset _ next)
      omega

theorem ne_nil (tiling : Tiling list start stop chunks) : chunks ≠ [] := by
  rintro rfl
  cases tiling.last

theorem first_ne_null (tiling : Tiling list start stop chunks) : list.first ≠ null :=
  fun empty => tiling.ne_nil ((tiling.linked.start_eq_end_iff tiling.null_not_mem).mp empty)

theorem stop_not_mem (tiling : Tiling list start stop chunks) : stop ∉ chunks := by
  intro member
  have := (tiling.inside member).2
  have := grows list chunks stop member
  omega

/-- The last chunk, split off. -/
theorem exists_last (tiling : Tiling list start stop chunks) :
    ∃ front, chunks = front ++ [list.last] := by
  obtain ⟨front, h⟩ := List.getLast?_eq_some_iff.mp tiling.last
  exact ⟨front, h⟩

theorem last_stop (tiling : Tiling list start stop chunks) : chunkStop list list.last = stop := by
  obtain ⟨front, back⟩ := tiling.exists_last
  have tiled := tiling.tiled
  rw [back] at tiled
  exact tiled.last

/-- Operations that touch neither the links nor the sizes keep the tiling. -/
theorem congr {other : ChunkList} (tiling : Tiling list start stop chunks)
    (links : ∀ chunk ∈ chunks, (other.chunk chunk).next = (list.chunk chunk).next)
    (sizes : ∀ chunk ∈ chunks, (other.chunk chunk).object.size = (list.chunk chunk).object.size)
    (first : other.first = list.first) (last : other.last = list.last)
    (size : other.size = list.size) : Tiling other start stop chunks := by
  refine ⟨?_, ?_, by rw [last]; exact tiling.last, by rw [size]; exact tiling.size,
    tiling.positive, tiling.bounded⟩
  · rw [first]
    exact tiling.linked.congr links
  · refine tiling.tiled.congr fun chunk member => ?_
    rw [chunkStop, chunkStop, sizes chunk member]

/-- Rewriting the allocation or mark state of one chunk. -/
theorem store {chunk : Nat} {header : Chunk} (tiling : Tiling list start stop chunks)
    (next : header.next = (list.chunk chunk).next)
    (size : header.object.size = (list.chunk chunk).object.size) :
    Tiling { list with chunk := Source.store list.chunk chunk header } start stop chunks := by
  refine tiling.congr ?_ ?_ rfl rfl rfl
  · intro c _
    simp only [store_apply]
    split
    · next same => rw [same, next]
    · rfl
  · intro c _
    simp only [store_apply]
    split
    · next same => rw [same, size]
    · rfl

/-- `ChunkList_push` of a new chunk right behind the list. -/
theorem push {size : Nat} (tiling : Tiling list start stop chunks) (room : chunkHeaderSize ≤ size)
    (fits : stop + size ≤ sizeModulus) :
    Tiling (ChunkList.push
      { list with
        chunk := Source.store list.chunk stop (Chunk.init (sizeSub size chunkHeaderSize)) } stop)
      start (stop + size) (chunks ++ [stop]) := by
  obtain ⟨front, split⟩ := tiling.exists_last
  have fresh := tiling.stop_not_mem
  have distinct : list.last ∉ front ∧ list.last ≠ stop := by
    have nodup := tiling.nodup
    rw [split] at nodup fresh
    refine ⟨fun member => ?_, fun same => fresh (by simp [same])⟩
    exact (List.nodup_append.mp nodup).2.2 _ member _ (by simp) rfl
  have stays : ∀ chunk ∈ front, chunk ≠ stop ∧ chunk ≠ list.last := by
    intro chunk member
    refine ⟨?_, ?_⟩
    · rintro rfl
      exact fresh (by simp [split, member])
    · rintro rfl
      exact distinct.1 member
  have exact_size : sizeSub size chunkHeaderSize = size - chunkHeaderSize := by
    have := tiling.positive
    have := (Links.within (grows list chunks) tiling.tiled).1
    simp only [sizeSub, sizeModulus, chunkHeaderSize] at *
    omega
  have notEmpty : list.first ≠ null := tiling.first_ne_null
  have pushed : ChunkList.push
      { list with
        chunk := Source.store list.chunk stop (Chunk.init (sizeSub size chunkHeaderSize)) } stop =
      { chunk := Source.store (Source.store list.chunk stop (Chunk.init (size - chunkHeaderSize)))
          list.last { list.chunk list.last with next := stop }
        first := list.first
        last := stop
        size := list.size + 1 } := by
    have blank : (list.first == null) = false := by simpa using notEmpty
    simp only [ChunkList.push, ChunkList.setNext, ChunkList.isEmpty, exact_size, blank,
      Bool.false_eq_true, if_false]
    refine congrArg (fun chunk => ChunkList.mk chunk list.first stop (list.size + 1)) ?_
    funext c
    simp only [store_apply]
    split <;> rename_i h
    · subst h
      simp [distinct.2]
    · by_cases same : c = stop <;> simp [same, Chunk.init]
  rw [pushed]
  have linked := tiling.linked
  have tiled := tiling.tiled
  rw [split, Links.split] at linked tiled
  refine ⟨?_, ?_, by simp, by simp [tiling.size], tiling.positive, fits⟩
  · rw [split, List.append_assoc, List.singleton_append, Links.split]
    refine ⟨linked.1.congr fun c member => ?_, ?_⟩
    · simp [store_apply, stays c member]
    · simp [store_apply, distinct.2.symm, Chunk.init]
  · rw [split, List.append_assoc, List.singleton_append, Links.split]
    refine ⟨tiled.1.congr fun c member => ?_, ?_⟩
    · simp [chunkStop, store_apply, stays c member]
    · have here := Links.nil_iff.mp tiled.2
      simp only [chunkStop] at here
      simp only [chunkStop, store_apply, distinct.2.symm, if_true, if_false, Chunk.init,
        Links.cons_iff, Links.nil_iff, here]
      simp only [true_and]
      omega

/-- The list after `chunk` was cut down to `size` bytes and `free` inserted behind it. -/
def cut (list : ChunkList) (chunk free size : Nat) : ChunkList :=
  { chunk := Source.store (Source.store list.chunk chunk
      { list.chunk chunk with
        next := free
        object := { (list.chunk chunk).object with size := size } }) free
      { Chunk.init ((list.chunk chunk).object.size - size - chunkHeaderSize) with
        next := (list.chunk chunk).next }
    first := list.first
    last := if chunk = list.last then free else list.last
    size := list.size + 1 }

/-- The chunk that was cut, the rest, and the others. -/
theorem cut_chunk (list : ChunkList) (chunk size : Nat) :
    ((cut list chunk (chunk + chunkHeaderSize + size) size).chunk chunk).object.size = size ∧
    (cut list chunk (chunk + chunkHeaderSize + size) size).chunk (chunk + chunkHeaderSize + size) =
      { Chunk.init ((list.chunk chunk).object.size - size - chunkHeaderSize) with
        next := (list.chunk chunk).next } ∧
    ∀ c, c ≠ chunk → c ≠ chunk + chunkHeaderSize + size →
      (cut list chunk (chunk + chunkHeaderSize + size) size).chunk c = list.chunk c := by
  rw [cut]
  refine ⟨?_, store_same _ _ _, fun c other away => ?_⟩
  · dsimp only
    rw [store_other _ _ _ _ (by simp only [chunkHeaderSize]; omega), store_same]
  · exact (store_other _ _ _ _ away).trans (store_other _ _ _ _ other)

/-- `ChunkList_split` cuts the chunk when enough remains, and its assertion holds. -/
theorem split_eq {chunk size : Nat} (tiling : Tiling list start stop chunks)
    (member : chunk ∈ chunks) (fits : size ≤ (list.chunk chunk).object.size) :
    ChunkList.split list chunk size =
      .ok (if (list.chunk chunk).object.size - size < chunkMinSize then list
        else cut list chunk (chunk + chunkHeaderSize + size) size) := by
  obtain ⟨low, high⟩ := tiling.inside member
  have bounded := tiling.bounded
  have remaining : sizeSub (list.chunk chunk).object.size size =
      (list.chunk chunk).object.size - size := by
    simp only [chunkStop, chunkHeaderSize] at *
    exact sizeSub_eq fits (by omega)
  simp only [ChunkList.split, remaining]
  by_cases small : (list.chunk chunk).object.size - size < chunkMinSize
  · rw [if_pos small, if_pos small]
  · rw [if_neg small, if_neg small]
    have address : sizeAdd (sizeAdd chunk chunkHeaderSize) size = chunk + chunkHeaderSize + size := by
      simp only [sizeAdd, sizeModulus, chunkStop, chunkHeaderSize, chunkMinSize] at *
      omega
    have rest : sizeSub ((list.chunk chunk).object.size - size) chunkHeaderSize =
        (list.chunk chunk).object.size - size - chunkHeaderSize := by
      simp only [sizeSub, sizeModulus, chunkStop, chunkHeaderSize, chunkMinSize] at *
      omega
    have apart : chunk + chunkHeaderSize + size ≠ chunk := by
      simp only [chunkHeaderSize]
      omega
    obtain ⟨front, back⟩ := tiling.exists_last
    -- the next chunk starts where this one ends
    have follows : (list.chunk chunk).next ≠ null →
        (list.chunk chunk).next = chunkStop list chunk ∧ (list.chunk chunk).next < stop := by
      obtain ⟨pre, post, h⟩ := List.append_of_mem member
      have linked := tiling.linked
      have tiled := tiling.tiled
      rw [h, Links.split] at linked tiled
      intro notLast
      cases post with
      | nil => exact absurd (Links.nil_iff.mp linked.2) notLast
      | cons next post =>
        have inner := tiling.inside (show next ∈ chunks by simp [h])
        have := grows list chunks next (by simp [h])
        refine ⟨linked.2.1.trans tiled.2.1.symm, ?_⟩
        rw [linked.2.1]
        omega
    have inserted : ChunkList.insert { list with
        chunk := Source.store (Source.store list.chunk chunk
          { list.chunk chunk with object := { (list.chunk chunk).object with size := size } })
          (chunk + chunkHeaderSize + size)
          (Chunk.init ((list.chunk chunk).object.size - size - chunkHeaderSize)) }
        (chunk + chunkHeaderSize + size) chunk =
        cut list chunk (chunk + chunkHeaderSize + size) size := by
      simp only [ChunkList.insert, ChunkList.setNext, cut]
      by_cases isLast : chunk = list.last
      · have ends : (list.chunk chunk).next = null := by
          have linked := tiling.linked
          rw [back, Links.split] at linked
          rw [isLast]
          exact linked.2
        simp only [if_pos isLast]
        refine congrArg (fun chunk => ChunkList.mk chunk list.first _ (list.size + 1)) ?_
        funext c
        rw [← isLast]
        by_cases h : c = chunk
        · simp [store_apply, h, Ne.symm apart]
        · by_cases h' : c = chunk + chunkHeaderSize + size <;>
            simp [store_apply, h, h', apart, ends]
      · simp only [if_neg isLast]
        refine congrArg (fun chunk => ChunkList.mk chunk list.first _ (list.size + 1)) ?_
        funext c
        by_cases h : c = chunk
        · simp [store_apply, h, Ne.symm apart]
        · by_cases h' : c = chunk + chunkHeaderSize + size <;>
            simp [store_apply, h, h', apart, Ne.symm apart]
    simp only [address, rest, inserted]
    have freeNext : ((cut list chunk (chunk + chunkHeaderSize + size) size).chunk
        (chunk + chunkHeaderSize + size)).next = (list.chunk chunk).next := by
      simp [cut]
    rw [freeNext]
    by_cases last : (list.chunk chunk).next = null
    · rw [if_neg (by simpa using last)]
    · have agree : sizeAdd (chunk + chunkHeaderSize + size)
          ((list.chunk chunk).object.size - size) = (list.chunk chunk).next := by
        obtain ⟨next, below⟩ := follows last
        rw [next] at below ⊢
        simp only [sizeAdd, sizeModulus, chunkStop, chunkHeaderSize] at *
        omega
      rw [if_pos last, agree]
      simp [check, bind, Except.bind]

/-- Cutting a chunk of the tiling gives a tiling with one chunk more. -/
theorem cut_tiling {chunk size : Nat} {pre post : List Nat}
    (tiling : Tiling list start stop (pre ++ chunk :: post))
    (enough : chunkHeaderSize ≤ (list.chunk chunk).object.size - size) :
    Tiling (cut list chunk (chunk + chunkHeaderSize + size) size) start stop
      (pre ++ chunk :: (chunk + chunkHeaderSize + size) :: post) := by
  have linked := tiling.linked
  have tiled := tiling.tiled
  have ascending := Links.ascending (grows list _) tiled
  rw [Links.split] at linked tiled
  rw [List.pairwise_append, List.pairwise_cons] at ascending
  have gapLow : chunk < chunk + chunkHeaderSize + size := by
    simp only [chunkHeaderSize]
    omega
  have gapHigh : chunk + chunkHeaderSize + size < chunkStop list chunk := by
    simp only [chunkStop, chunkHeaderSize] at *
    omega
  have before : ∀ c ∈ pre, c ≠ chunk ∧ c ≠ chunk + chunkHeaderSize + size := by
    intro c member
    have := ascending.2.2 c member chunk (by simp)
    have := grows list [c] c (by simp)
    omega
  have after : ∀ c ∈ post, c ≠ chunk ∧ c ≠ chunk + chunkHeaderSize + size := by
    intro c member
    have := ascending.2.1.1 c member
    omega
  have apart : chunk ≠ chunk + chunkHeaderSize + size := Nat.ne_of_lt gapLow
  refine ⟨?_, ?_, ?_, ?_, tiling.positive, tiling.bounded⟩
  · rw [Links.split]
    refine ⟨linked.1.congr fun c member => ?_, ?_⟩
    · simp [cut, store_apply, before c member]
    · refine ⟨by simp [cut, store_apply, apart], ?_⟩
      have next : ((cut list chunk (chunk + chunkHeaderSize + size) size).chunk
          (chunk + chunkHeaderSize + size)).next = (list.chunk chunk).next := by simp [cut]
      beta_reduce
      rw [next]
      exact linked.2.congr fun c member => by simp [cut, store_apply, after c member]
  · rw [Links.split]
    refine ⟨tiled.1.congr fun c member => ?_, ?_⟩
    · simp [chunkStop, cut, store_apply, before c member]
    · refine ⟨by simp [chunkStop, cut, store_apply, apart], ?_⟩
      have ends : chunkStop (cut list chunk (chunk + chunkHeaderSize + size) size)
          (chunk + chunkHeaderSize + size) = chunkStop list chunk := by
        simp only [chunkStop, cut, store_same, Chunk.init, chunkHeaderSize] at *
        omega
      rw [ends]
      exact tiled.2.congr fun c member => by simp [chunkStop, cut, store_apply, after c member]
  · have last := tiling.last
    cases post with
    | nil =>
      have same : chunk = list.last := by simpa using last
      simp [cut, same]
    | cons next post =>
      have different : chunk ≠ list.last := by
        have last' : list.last ∈ next :: post := by
          have := List.mem_of_getLast? (by simpa using last : (next :: post).getLast? = some list.last)
          exact this
        intro same
        exact (after _ last').1 same.symm
      simpa [cut, different] using last
  · have := tiling.size
    simp only [cut, List.length_append, List.length_cons] at *
    omega

/-! ## Sweeping -/

/-- The inner loop of `ChunkList_sweep` passes the unmarked chunks at the front of `rest`. -/
theorem unmarkedRun_spec (list : ChunkList) (rest : List Nat) (fuel limit count : Nat)
    (linked : Links (fun chunk => (list.chunk chunk).next) limit rest null) (away : null ∉ rest) :
    (ChunkList.unmarkedRun list fuel limit count = .error .running ∧ fuel ≤ rest.length) ∨
    ∃ run rest' limit', rest = run ++ rest' ∧
      ChunkList.unmarkedRun list fuel limit count = .ok (limit', count + run.length) ∧
      Links (fun chunk => (list.chunk chunk).next) limit run limit' ∧
      Links (fun chunk => (list.chunk chunk).next) limit' rest' null ∧
      (∀ chunk ∈ run, (list.chunk chunk).isMarked = false) ∧
      (∀ chunk ∈ rest'.head?, (list.chunk chunk).isMarked = true) := by
  induction fuel generalizing rest limit count with
  | zero => exact Or.inl ⟨rfl, Nat.zero_le _⟩
  | succ fuel ih =>
    rw [ChunkList.unmarkedRun]
    by_cases passes : limit ≠ null ∧ (list.chunk limit).isMarked = false
    · rw [if_pos passes]
      cases rest with
      | nil => exact absurd (Links.nil_iff.mp linked) passes.1
      | cons chunk rest =>
        obtain ⟨rfl, linked⟩ := linked
        rcases ih rest _ (count + 1) linked (by simp_all) with ⟨running, short⟩ | found
        · exact Or.inl ⟨running, by simpa using short⟩
        · obtain ⟨run, rest', limit', rfl, ended, linkedRun, linked', unmarked, kept⟩ := found
          refine Or.inr ⟨limit :: run, rest', limit', rfl, ?_, ⟨rfl, linkedRun⟩, linked', ?_, kept⟩
          · rw [ended, List.length_cons]
            simp only [Except.ok.injEq, Prod.mk.injEq, true_and]
            omega
          · simpa using ⟨passes.2, unmarked⟩
    · rw [if_neg passes]
      refine Or.inr ⟨[], rest, limit, rfl, rfl, rfl, linked, by simp, fun chunk first => ?_⟩
      cases rest with
      | nil => cases first
      | cons head rest =>
        obtain rfl : head = chunk := Option.some.inj first
        obtain ⟨rfl, -⟩ := linked
        by_contra unmarked
        exact passes ⟨fun h => away (by rw [← h]; simp), by simpa using unmarked⟩

/-- The list after a run of chunks behind `chunk` was merged into it. -/
def joined (list : ChunkList) (chunk limit size count : Nat) : ChunkList :=
  { list with
    chunk := Source.store list.chunk chunk
      { list.chunk chunk with
        next := limit
        object := { (list.chunk chunk).object with size := size } }
    last := if limit = null then chunk else list.last
    size := list.size - count }

theorem intOf_small {n : Nat} (small : n < 2 ^ 31) : intOf n = n := by
  have : (2 ^ 31 : Nat) = 2147483648 := by decide
  unfold intOf
  rw [Int.bmod_eq_of_le] <;> omega

theorem intOf_lt (n : Nat) : (intOf n).toNat < 2 ^ 31 := by
  have width : (2 ^ 32 : Nat) = 4294967296 := by decide
  have range := Int.bmod_lt (x := (n : Int)) (m := 2 ^ 32) (Nat.two_pow_pos 32)
  unfold intOf
  omega

/-- `ChunkList_merge` of a run that ends before a kept chunk, or at the end of a list whose
last chunk has a size that fits an `int`. -/
theorem merge_spec {chunk limit : Nat} {pre run rest : List Nat}
    (tiling : Tiling list start stop (pre ++ chunk :: run ++ rest)) (some : run ≠ [])
    (linked : Links (fun chunk => (list.chunk chunk).next) limit rest null)
    (fits : rest = [] → (list.chunk list.last).object.size + chunkHeaderSize < 2 ^ 31) :
    ∃ size, ChunkList.merge list chunk limit run.length = .ok (joined list chunk limit size run.length) ∧
      Tiling (joined list chunk limit size run.length) start stop (pre ++ chunk :: rest) := by
  have bounded := tiling.bounded
  have links := tiling.linked
  have tiled := tiling.tiled
  have ascending := Links.ascending (grows list _) tiled
  have length := tiling.size
  have away := tiling.null_not_mem
  rw [List.append_assoc, List.cons_append, Links.split, Links.append] at links tiled
  obtain ⟨linkedPre, middle, linkedRun, linkedRest⟩ := links
  obtain ⟨tiledPre, finish, tiledRun, tiledRest⟩ := tiled
  have span : chunkStop list chunk < finish ∧ finish ≤ stop := by
    refine ⟨?_, (Links.within (grows list _) tiledRest).1⟩
    cases run with
    | nil => exact absurd rfl some
    | cons first run =>
      have := (Links.within (grows list _) tiledRun).2 first (by simp)
      have := grows list [first] first (by simp)
      omega
  have low : start ≤ chunk := (tiling.inside (by simp)).1
  -- the address `merge` computes is the end of the run
  have target : sizeSub (sizeSub (if limit = null then list.limit else limit) chunk) chunkHeaderSize =
      finish - chunk - chunkHeaderSize := by
    cases rest with
    | nil =>
      have ends : limit = null := Links.nil_iff.mp linked
      have finished : finish = stop := Links.nil_iff.mp tiledRest
      obtain ⟨front, back⟩ := tiling.exists_last
      have lastStop := tiling.last_stop
      have notNull : list.last ≠ null := by
        intro h
        exact away (by rw [back, h]; simp)
      have exactSize : sizeAdd (list.chunk list.last).object.size chunkHeaderSize =
          (list.chunk list.last).object.size + chunkHeaderSize := by
        have := fits rfl
        simp only [sizeAdd, sizeModulus, chunkHeaderSize] at *
        omega
      have value : list.limit = stop % sizeModulus := by
        rw [ChunkList.limit, if_neg notNull, Chunk.size, exactSize, intOf_small (fits rfl)]
        rw [← lastStop, chunkStop, Nat.add_assoc, Nat.add_comm chunkHeaderSize,
          ← Int.natCast_add, ← Int.natCast_emod, Int.toNat_natCast]
      rw [if_pos ends, value, finished]
      simp only [sizeSub, sizeModulus, chunkHeaderSize, chunkStop] at *
      omega
    | cons next rest =>
      have ends : limit = next := linked.1
      have finished : finish = next := tiledRest.1
      have notNull : limit ≠ null := by
        intro h
        exact away (by rw [← h, ends]; simp)
      have below : next < stop := by
        have := (tiling.inside (show next ∈ pre ++ chunk :: run ++ next :: rest by simp)).2
        have := grows list [next] next (by simp)
        omega
      rw [if_neg notNull, ends, finished]
      simp only [sizeSub, sizeModulus, chunkHeaderSize, chunkStop] at *
      omega
  have larger : (list.chunk chunk).object.size < finish - chunk - chunkHeaderSize := by
    simp only [chunkStop, chunkHeaderSize] at *
    omega
  have counted : sizeSub list.size run.length = list.size - run.length := by
    have few := Links.length_le (grows list _) tiling.tiled
    have positive := tiling.positive
    simp only [List.length_append, List.length_cons, List.append_assoc, List.cons_append] at length few
    exact sizeSub_eq (by omega) (by omega)
  have apart : (∀ c ∈ pre, c ≠ chunk) ∧ ∀ c ∈ rest, c ≠ chunk := by
    have nodup := tiling.nodup
    rw [List.append_assoc, List.cons_append, List.nodup_append, List.nodup_cons] at nodup
    refine ⟨fun c member => nodup.2.2 c member chunk (by simp), ?_⟩
    rintro c member rfl
    exact nodup.2.1.1 (by simp [member])
  refine ⟨finish - chunk - chunkHeaderSize, ?_, ?_, ?_, ?_, ?_, tiling.positive, bounded⟩
  · simp only [ChunkList.merge, target]
    rw [show check (finish - chunk - chunkHeaderSize > (list.chunk chunk).object.size)
      "size > chunk->object.size" = .ok () from check_eq_ok.mpr (by simpa using larger)]
    simp only [bind, Except.bind, counted, joined]
  · rw [Links.split]
    refine ⟨linkedPre.congr fun c member => ?_, ?_⟩
    · simp [joined, store_apply, apart.1 c member]
    · have next : ((joined list chunk limit (finish - chunk - chunkHeaderSize) run.length).chunk
          chunk).next = limit := by simp [joined]
      rw [next]
      exact linked.congr fun c member => by simp [joined, store_apply, apart.2 c member]
  · rw [Links.split]
    refine ⟨tiledPre.congr fun c member => ?_, ?_⟩
    · simp [chunkStop, joined, store_apply, apart.1 c member]
    · have ends : chunkStop (joined list chunk limit (finish - chunk - chunkHeaderSize) run.length)
          chunk = finish := by
        simp only [chunkStop, joined, store_same, chunkHeaderSize] at *
        omega
      rw [ends]
      exact tiledRest.congr fun c member => by
        simp [chunkStop, joined, store_apply, apart.2 c member]
  · have last := tiling.last
    cases rest with
    | nil =>
      have ends : limit = null := Links.nil_iff.mp linked
      simp [joined, ends]
    | cons next rest =>
      have notNull : limit ≠ null := by
        intro h
        exact away (by rw [← h, linked.1]; simp)
      have tail : ∀ xs : List Nat, (xs ++ next :: rest).getLast? = (next :: rest).getLast? := by
        intro xs
        simp [List.getLast?_append, List.getLast?_cons]
      rw [tail] at last
      rw [show pre ++ chunk :: next :: rest = (pre ++ [chunk]) ++ next :: rest by simp, tail]
      simpa [joined, notNull] using last
  · simp only [List.length_append, List.length_cons, joined] at *
    omega

/-- The list does not end in two unmarked chunks of which the last has 2^31 bytes or more. -/
def TailFits (list : ChunkList) (chunks : List Nat) : Prop :=
  ∀ front previous last, chunks = front ++ [previous, last] →
    (list.chunk previous).isMarked = false → (list.chunk last).isMarked = false →
    (list.chunk last).object.size + chunkHeaderSize < 2 ^ 31

/-- What sweeping does to the chunks it walks over: marked ones stay as they are, the
others are free or gone. -/
structure Swept (list list' : ChunkList) (chunks chunks' : List Nat) : Prop where
  subset : ∀ chunk ∈ chunks', chunk ∈ chunks
  kept : ∀ chunk ∈ chunks, (list.chunk chunk).isMarked = true →
    chunk ∈ chunks' ∧ list'.chunk chunk = list.chunk chunk
  freed : ∀ chunk ∈ chunks', (list.chunk chunk).isMarked = false →
    (list'.chunk chunk).allocated = 0 ∧ (list'.chunk chunk).isMarked = false
  frame : ∀ chunk, chunk ∉ chunks → list'.chunk chunk = list.chunk chunk

/-- Freeing an unmarked chunk, with the run of unmarked chunks behind it. -/
theorem Swept.free {list list' middle : ChunkList} {chunk : Nat} {run rest rest' : List Nat}
    (unmarked : (list.chunk chunk).isMarked = false)
    (freed : (middle.chunk chunk).allocated = 0 ∧ (middle.chunk chunk).isMarked = false)
    (same : ∀ c, c ≠ chunk → middle.chunk c = list.chunk c)
    (unmarkedRun : ∀ c ∈ run, (list.chunk c).isMarked = false) (fresh : chunk ∉ rest)
    (swept : Swept middle list' rest rest') :
    Swept list list' (chunk :: (run ++ rest)) (chunk :: rest') := by
  have own : list'.chunk chunk = middle.chunk chunk := swept.frame chunk fresh
  have inRest : ∀ c ∈ rest, middle.chunk c = list.chunk c := by
    intro c member
    exact same c (by rintro rfl; exact fresh member)
  refine ⟨?_, ?_, ?_, ?_⟩
  · intro c member
    rcases List.mem_cons.mp member with rfl | later
    · simp
    · simp [swept.subset c later]
  · intro c member isMarked
    rcases List.mem_cons.mp member with rfl | later
    · rw [unmarked] at isMarked
      cases isMarked
    rcases List.mem_append.mp later with inRun | later
    · rw [unmarkedRun c inRun] at isMarked
      cases isMarked
    · rw [← inRest c later] at isMarked
      obtain ⟨stays, kept⟩ := swept.kept c later isMarked
      exact ⟨by simp [stays], kept.trans (inRest c later)⟩
  · intro c member isUnmarked
    rcases List.mem_cons.mp member with rfl | later
    · rw [own]
      exact freed
    · rw [← inRest c (swept.subset c later)] at isUnmarked
      exact swept.freed c later isUnmarked
  · intro c away
    rw [swept.frame c (by simp_all), same c (by rintro rfl; simp at away)]

theorem TailFits.lastFits {chunk last : Nat} {run : List Nat} (fits : TailFits list (chunk :: run))
    (some : run ≠ []) (unmarked : ∀ c ∈ chunk :: run, (list.chunk c).isMarked = false)
    (isLast : run.getLast? = Option.some last) :
    (list.chunk last).object.size + chunkHeaderSize < 2 ^ 31 := by
  obtain ⟨init, rfl⟩ := List.getLast?_eq_some_iff.mp isLast
  obtain ⟨front, previous, split⟩ : ∃ front previous, chunk :: init = front ++ [previous] :=
    ⟨_, _, (List.dropLast_append_getLast (List.cons_ne_nil chunk init)).symm⟩
  have whole : chunk :: (init ++ [last]) = front ++ [previous, last] := by
    rw [← List.cons_append, split]
    simp
  refine fits front previous last whole ?_ ?_
  · exact unmarked previous (by rw [whole]; simp)
  · exact unmarked last (by simp)

/-- The list with one chunk made free. -/
def freeChunk (list : ChunkList) (chunk : Nat) : ChunkList :=
  { list with chunk := Source.store list.chunk chunk { list.chunk chunk with allocated := 0 } }

@[simp] theorem freeChunk_same (list : ChunkList) (chunk : Nat) :
    (freeChunk list chunk).chunk chunk = { list.chunk chunk with allocated := 0 } := by
  simp [freeChunk]

theorem freeChunk_other (list : ChunkList) {chunk c : Nat} (different : c ≠ chunk) :
    (freeChunk list chunk).chunk c = list.chunk c := store_other _ _ _ _ different

theorem freeChunk_isMarked (list : ChunkList) (chunk c : Nat) :
    ((freeChunk list chunk).chunk c).isMarked = (list.chunk c).isMarked := by
  by_cases same : c = chunk
  · rw [same, freeChunk_same]
    rfl
  · rw [freeChunk_other list same]

theorem freeChunk_size (list : ChunkList) (chunk c : Nat) :
    ((freeChunk list chunk).chunk c).object.size = (list.chunk c).object.size := by
  by_cases same : c = chunk
  · rw [same, freeChunk_same]
  · rw [freeChunk_other list same]

theorem freeChunk_next (list : ChunkList) (chunk c : Nat) :
    ((freeChunk list chunk).chunk c).next = (list.chunk c).next := by
  by_cases same : c = chunk
  · rw [same, freeChunk_same]
  · rw [freeChunk_other list same]

theorem freeChunk_tiling (tiling : Tiling list start stop chunks) (chunk : Nat) :
    Tiling (freeChunk list chunk) start stop chunks :=
  tiling.congr (fun c _ => freeChunk_next list chunk c) (fun c _ => freeChunk_size list chunk c)
    rfl rfl rfl

theorem freeChunk_tailFits (fits : TailFits list chunks) (chunk : Nat) :
    TailFits (freeChunk list chunk) chunks := by
  intro front previous last whole hp hl
  rw [freeChunk_isMarked] at hp hl
  rw [freeChunk_size]
  exact fits front previous last whole hp hl

/-- Freeing a chunk and merging a run into it leaves the other chunks alone. -/
theorem joined_other {chunk limit size count c : Nat} (different : c ≠ chunk) :
    (joined (freeChunk list chunk) chunk limit size count).chunk c = list.chunk c :=
  (store_other _ _ _ _ different).trans (freeChunk_other list different)

/-- One iteration of the outer loop on an unmarked chunk. -/
theorem sweepFrom_unmarked {chunk : Nat} (fuel : Nat) (some : chunk ≠ null)
    (unmarked : (list.chunk chunk).isMarked = false) :
    ChunkList.sweepFrom (fuel + 1) chunk list = (do
      let (limit, count) ← ChunkList.unmarkedRun (freeChunk list chunk) fuel (list.chunk chunk).next 0
      if limit ≠ (list.chunk chunk).next then do
        let merged ← ChunkList.merge (freeChunk list chunk) chunk limit count
        ChunkList.sweepFrom fuel limit merged
      else ChunkList.sweepFrom fuel limit (freeChunk list chunk)) := by
  rw [ChunkList.sweepFrom, if_neg some, unmarked]
  simp only [Bool.false_eq_true, if_false, store_same]
  rfl

/-- The outer loop of `ChunkList_sweep`, by induction on its bound: `front` has been swept,
`chunk` is the first of `rest`. -/
theorem sweepFrom_spec (fuel chunk : Nat) (front rest : List Nat)
    (tiling : Tiling list start stop (front ++ rest))
    (linked : Links (fun chunk => (list.chunk chunk).next) chunk rest null)
    (fits : TailFits list rest) :
    (ChunkList.sweepFrom fuel chunk list = .error .running ∧ fuel ≤ rest.length) ∨
    ∃ list' rest', ChunkList.sweepFrom fuel chunk list = .ok list' ∧
      Tiling list' start stop (front ++ rest') ∧ Swept list list' rest rest' := by
  induction fuel generalizing list chunk front rest with
  | zero => exact Or.inl ⟨rfl, Nat.zero_le _⟩
  | succ fuel ih =>
    have away : null ∉ rest := fun member => tiling.null_not_mem (by simp [member])
    by_cases done : chunk = null
    · rw [ChunkList.sweepFrom, if_pos done]
      have empty := (linked.start_eq_end_iff away).mp done
      subst empty
      exact Or.inr ⟨list, [], rfl, tiling, by simp, by simp, by simp, fun _ _ => rfl⟩
    cases rest with
    | nil => exact absurd (Links.nil_iff.mp linked) done
    | cons head rest =>
    obtain ⟨rfl, linked⟩ := linked
    have nodup := tiling.nodup
    rw [List.nodup_append, List.nodup_cons] at nodup
    obtain ⟨-, ⟨fresh, nodupRest⟩, -⟩ := nodup
    cases marked : (list.chunk chunk).isMarked with
    | true =>
      -- a marked chunk is kept
      rw [ChunkList.sweepFrom, if_neg done, if_pos marked]
      have fits' : TailFits list rest := fun pre a b h => fits (chunk :: pre) a b (by simp [h])
      rcases ih _ (front ++ [chunk]) rest (by simpa using tiling) linked fits' with
        ⟨running, short⟩ | ⟨list', rest', run, tiling', swept⟩
      · exact Or.inl ⟨running, by simpa using short⟩
      · refine Or.inr ⟨list', chunk :: rest', run, by simpa using tiling', ?_, ?_, ?_, ?_⟩
        · intro c member
          rcases List.mem_cons.mp member with rfl | later
          · simp
          · simp [swept.subset c later]
        · intro c member isMarked
          rcases List.mem_cons.mp member with rfl | later
          · exact ⟨by simp, swept.frame c fresh⟩
          · obtain ⟨stays, same⟩ := swept.kept c later isMarked
            exact ⟨by simp [stays], same⟩
        · intro c member unmarked
          rcases List.mem_cons.mp member with rfl | later
          · rw [marked] at unmarked
            cases unmarked
          · exact swept.freed c later unmarked
        · intro c away
          exact swept.frame c (by simp_all)
    | false =>
      -- it is freed, with the run of unmarked chunks behind it
      have freed := freeChunk_tiling tiling chunk
      have linkedFree : Links (fun c => ((freeChunk list chunk).chunk c).next)
          (list.chunk chunk).next rest null :=
        linked.congr fun c _ => freeChunk_next list chunk c
      rw [sweepFrom_unmarked fuel done marked]
      rcases unmarkedRun_spec (freeChunk list chunk) rest fuel (list.chunk chunk).next 0 linkedFree
          (fun member => away (by simp [member])) with
        ⟨running, short⟩ | ⟨run, rest', limit, rfl, ended, linkedRun, linkedRest, unmarkedRun, -⟩
      · left
        rw [running, error_bind]
        exact ⟨rfl, by simpa using short⟩
      have freshRest : chunk ∉ rest' := fun member => fresh (by simp [member])
      have unmarkedRun' : ∀ c ∈ run, (list.chunk c).isMarked = false := by
        intro c member
        rw [← freeChunk_isMarked list chunk]
        exact unmarkedRun c member
      rw [ended, ok_bind, Nat.zero_add]
      dsimp only
      by_cases none : run = []
      · subst none
        have atNext : (list.chunk chunk).next = limit := linkedRun
        have fits' : TailFits (freeChunk list chunk) rest' :=
          freeChunk_tailFits (fun pre a b h => fits (chunk :: pre) a b (by simp [h])) chunk
        rw [if_neg (fun moved => moved atNext.symm)]
        rcases ih limit (front ++ [chunk]) rest' (by simpa using freed) linkedRest fits' with
          ⟨running, short⟩ | ⟨list', rest'', ran, tiling', swept⟩
        · exact Or.inl ⟨running, by simpa using short⟩
        · refine Or.inr ⟨list', chunk :: rest'', ran, by simpa using tiling', ?_⟩
          exact Swept.free marked ⟨by simp, by rw [freeChunk_isMarked]; exact marked⟩
            (fun c different => freeChunk_other list different) unmarkedRun' freshRest swept
      · have moved : limit ≠ (list.chunk chunk).next := by
          have passed := linkedRest.middle_not_mem nodupRest fun member => away (by simp [member])
          exact fun atNext => none ((linkedRun.start_eq_end_iff passed).mp atNext.symm)
        rw [if_pos moved]
        have last := freed.last
        have lastFits : rest' = [] → ((freeChunk list chunk).chunk
            (freeChunk list chunk).last).object.size + chunkHeaderSize < 2 ^ 31 := by
          rintro rfl
          rw [List.append_nil] at last fits
          refine TailFits.lastFits (freeChunk_tailFits fits chunk) none ?_ ?_
          · intro c member
            rw [freeChunk_isMarked]
            rcases List.mem_cons.mp member with rfl | later
            · exact marked
            · exact unmarkedRun' c later
          · obtain ⟨init, final, rfl⟩ : ∃ init final, run = init ++ [final] :=
              ⟨_, _, (List.dropLast_append_getLast none).symm⟩
            have whole : front ++ chunk :: (init ++ [final]) = (front ++ chunk :: init) ++ [final] := by
              simp
            rw [whole, List.getLast?_concat] at last
            rw [List.getLast?_concat]
            exact last
        obtain ⟨size, merged, mergedTiling⟩ := merge_spec
          (by simpa using freed) none linkedRest lastFits
        rw [merged, ok_bind]
        have own : (joined (freeChunk list chunk) chunk limit size run.length).chunk chunk =
            { list.chunk chunk with
              next := limit
              allocated := 0
              object := { (list.chunk chunk).object with size := size } } := by
          simp [joined]
        have inRest : ∀ c ∈ rest', c ≠ chunk := by
          rintro c member rfl
          exact freshRest member
        have fits' : TailFits (joined (freeChunk list chunk) chunk limit size run.length) rest' := by
          intro pre a b h ha hb
          rw [joined_other (inRest a (by simp [h]))] at ha
          rw [joined_other (inRest b (by simp [h]))] at hb ⊢
          exact fits (chunk :: run ++ pre) a b (by simp [h]) ha hb
        have linkedJoined : Links (fun c => ((joined (freeChunk list chunk) chunk limit size
            run.length).chunk c).next) limit rest' null := by
          refine linkedRest.congr fun c member => ?_
          rw [joined_other (inRest c member), freeChunk_next]
        rcases ih limit (front ++ [chunk]) rest' (by simpa using mergedTiling) linkedJoined fits' with
          ⟨running, short⟩ | ⟨list', rest'', ran, tiling', swept⟩
        · refine Or.inl ⟨running, ?_⟩
          simp only [List.length_cons, List.length_append]
          omega
        · refine Or.inr ⟨list', chunk :: rest'', ran, by simpa using tiling', ?_⟩
          exact Swept.free marked ⟨by rw [own], by rw [own]; exact marked⟩
            (fun c different => joined_other different) unmarkedRun' freshRest swept

theorem limit_congr {list' : ChunkList} (last : list'.last = list.last)
    (size : (list'.chunk list.last).object.size = (list.chunk list.last).object.size) :
    list'.limit = list.limit := by
  rw [ChunkList.limit, ChunkList.limit, last, Chunk.size, Chunk.size, size]

theorem joined_limit {chunk limit size count : Nat} (some : limit ≠ null) (other : list.last ≠ chunk) :
    (joined (freeChunk list chunk) chunk limit size count).limit = list.limit :=
  limit_congr (if_neg some) (by rw [joined_other other])

/-- A run that reaches the end of the list gets the size that `ChunkList_limit` gives. -/
theorem merge_last {chunk count fuel : Nat} {list' : ChunkList}
    (success : (do
      let merged ← ChunkList.merge list chunk null count
      ChunkList.sweepFrom fuel null merged) = .ok list') :
    (list'.chunk list'.last).object.size =
      sizeSub (sizeSub list.limit list'.last) chunkHeaderSize := by
  obtain ⟨merged, merging, sweeping⟩ := bind_eq_ok.mp success
  rw [ChunkList.merge] at merging
  obtain ⟨-, -, joins⟩ := bind_eq_ok.mp merging
  cases fuel with
  | zero => cases sweeping
  | succ fuel =>
    rw [ChunkList.sweepFrom, if_pos rfl, ← Except.ok.inj joins] at sweeping
    rw [← Except.ok.inj sweeping]
    simp only [if_true, store_same]

/-- A sweep that comes to two unmarked chunks at the end of the list leaves a last chunk that
ends where `ChunkList_limit` says. -/
theorem sweepFrom_tail {previous last : Nat} (fuel chunk : Nat) (front rest : List Nat)
    {list' : ChunkList} (tiling : Tiling list start stop (front ++ rest))
    (linked : Links (fun chunk => (list.chunk chunk).next) chunk rest null)
    (tail : [previous, last] <:+ rest)
    (unmarked : ∀ c ∈ [previous, last], (list.chunk c).isMarked = false)
    (success : ChunkList.sweepFrom fuel chunk list = .ok list') :
    (list'.chunk list'.last).object.size =
      sizeSub (sizeSub list.limit list'.last) chunkHeaderSize := by
  induction fuel generalizing list chunk front rest with
  | zero => cases success
  | succ fuel ih =>
    have away : null ∉ rest := fun member => tiling.null_not_mem (by simp [member])
    cases rest with
    | nil => simp at tail
    | cons head rest =>
    obtain ⟨rfl, linked⟩ := linked
    have some : chunk ≠ null := fun none => away (by simp [none])
    have nodup := tiling.nodup
    rw [List.nodup_append, List.nodup_cons] at nodup
    obtain ⟨-, ⟨fresh, nodupRest⟩, -⟩ := nodup
    cases marked : (list.chunk chunk).isMarked with
    | true =>
      rw [ChunkList.sweepFrom, if_neg some, if_pos marked] at success
      obtain whole | later := List.suffix_cons_iff.mp tail
      · rw [← (List.cons.inj whole).1, unmarked previous (by simp)] at marked
        cases marked
      · exact ih _ (front ++ [chunk]) rest (by simpa using tiling) linked later unmarked success
    | false =>
      have freed := freeChunk_tiling tiling chunk
      have linkedFree : Links (fun c => ((freeChunk list chunk).chunk c).next)
          (list.chunk chunk).next rest null :=
        linked.congr fun c _ => freeChunk_next list chunk c
      have behind : [previous, last] <:+ rest ∨ rest = [last] :=
        (List.suffix_cons_iff.mp tail).symm.imp_right fun whole => (List.cons.inj whole).2.symm
      have limitFree : (freeChunk list chunk).limit = list.limit :=
        limit_congr rfl (freeChunk_size list chunk _)
      rw [sweepFrom_unmarked fuel some marked] at success
      rcases unmarkedRun_spec (freeChunk list chunk) rest fuel (list.chunk chunk).next 0 linkedFree
          (fun member => away (by simp [member])) with
        ⟨running, -⟩ | ⟨run, rest', limit, rfl, ended, linkedRun, linkedRest, -, ends⟩
      · rw [running, error_bind] at success
        cases success
      rw [ended, ok_bind, Nat.zero_add] at success
      dsimp only at success
      cases rest' with
      | nil =>
        -- the run reaches the end of the list
        obtain rfl : limit = null := Links.nil_iff.mp linkedRest
        have moved : null ≠ (list.chunk chunk).next := by
          intro ends
          have empty := (linked.start_eq_end_iff fun member =>
            away (List.mem_cons_of_mem _ member)).mp ends.symm
          rw [empty] at behind
          simp at behind
        rw [if_pos moved] at success
        rw [← limitFree]
        exact merge_last success
      | cons first rest' =>
        have kept : (list.chunk first).isMarked = true := by
          rw [← freeChunk_isMarked list chunk]
          exact ends first rfl
        have later : [previous, last] <:+ first :: rest' := by
          refine (List.suffix_or_suffix_of_suffix tail ⟨chunk :: run, by simp⟩).resolve_right ?_
          intro inTail
          rw [unmarked first (inTail.subset List.mem_cons_self)] at kept
          cases kept
        have apart : ∀ c ∈ first :: rest', c ≠ chunk := by
          rintro c member rfl
          exact fresh (List.mem_append_right _ member)
        by_cases none : run = []
        · subst none
          rw [if_neg fun moved => moved linkedRun.symm] at success
          rw [← limitFree]
          refine ih limit (front ++ [chunk]) _ (by simpa using freed) linkedRest later ?_ success
          exact fun c member => (freeChunk_isMarked list chunk c).trans (unmarked c member)
        · have atFirst : limit = first := linkedRest.1
          have moved : limit ≠ (list.chunk chunk).next := by
            have passed := linkedRest.middle_not_mem nodupRest fun member => away (by simp [member])
            exact fun atNext => none ((linkedRun.start_eq_end_iff passed).mp atNext.symm)
          obtain ⟨size, merged, mergedTiling⟩ :=
            merge_spec (by simpa using freed) none linkedRest (fun wrong => by cases wrong)
          rw [if_pos moved, merged, ok_bind] at success
          have inRest : list.last ∈ first :: rest' := by
            have isLast := tiling.last
            rw [show front ++ chunk :: (run ++ first :: rest') =
              (front ++ chunk :: run) ++ first :: rest' by simp, List.getLast?_append_cons] at isLast
            exact List.mem_of_getLast? isLast
          have notNull : limit ≠ null := fun null => away (by simp [← null, atFirst])
          rw [← joined_limit notNull (apart _ inRest)]
          refine ih limit (front ++ [chunk]) _ (by simpa using mergedTiling) ?_ later ?_ success
          · refine linkedRest.congr fun c member => ?_
            rw [joined_other (apart c member), freeChunk_next]
          · intro c member
            rw [joined_other (apart c (later.subset member))]
            exact unmarked c member

/-- `ChunkList_sweep` of a tiling whose last chunk can be measured with an `int`. -/
theorem sweep_spec (tiling : Tiling list start stop chunks) (fits : TailFits list chunks)
    (fuel : Nat) :
    (ChunkList.sweep fuel list = .error .running ∧ fuel ≤ chunks.length) ∨
    ∃ list' chunks', ChunkList.sweep fuel list = .ok list' ∧
      Tiling list' start stop chunks' ∧ Swept list list' chunks chunks' :=
  sweepFrom_spec fuel list.first [] chunks tiling tiling.linked fits

/-! ## Validation -/

theorem validateFrom_spec (tiling : Tiling list start stop chunks) (below : stop < sizeModulus)
    (fuel chunk : Nat) (front rest : List Nat) (split : chunks = front ++ rest)
    (linked : Links (fun chunk => (list.chunk chunk).next) chunk rest null)
    (tiled : Links (chunkStop list) chunk rest stop ∨ rest = [])
    (enough : rest.length < fuel) :
    ChunkList.validateFrom list stop fuel chunk front.length = .ok () := by
  induction fuel generalizing chunk front rest with
  | zero => omega
  | succ fuel ih =>
    rw [ChunkList.validateFrom]
    cases rest with
    | nil => rw [if_pos (Links.nil_iff.mp linked)]
    | cons head rest =>
      obtain ⟨rfl, linked⟩ := linked
      obtain ⟨-, tiled⟩ := tiled.resolve_right (by simp)
      have member : chunk ∈ chunks := by simp [split]
      have notNull : chunk ≠ null := by
        rintro rfl
        exact tiling.null_not_mem member
      have inside := (tiling.inside member).2
      have actual : sizeAdd (sizeAdd chunk chunkHeaderSize) (list.chunk chunk).object.size =
          chunkStop list chunk := by
        simp only [sizeAdd, sizeModulus, chunkStop, chunkHeaderSize] at *
        omega
      rw [if_neg notNull]
      simp only [actual]
      cases rest with
      | nil =>
        have ends : (list.chunk chunk).next = null := Links.nil_iff.mp linked
        have atStop : chunkStop list chunk = stop := Links.nil_iff.mp tiled
        have isLast : chunk = list.last := by
          have := tiling.last
          rw [split, List.getLast?_concat] at this
          exact Option.some.inj this
        have counted : front.length + 1 = list.size := by
          rw [tiling.size, split]
          simp
        rw [if_pos ends, if_neg (by simp [atStop]), if_neg (by simp [isLast]),
          if_neg (by simp [counted])]
      | cons next rest =>
        have toNext : (list.chunk chunk).next = next := linked.1
        have atNext : chunkStop list chunk = next := tiled.1
        have nextNotNull : next ≠ null := by
          rintro rfl
          exact tiling.null_not_mem (by simp [split])
        rw [if_neg (by rw [toNext]; exact nextNotNull), if_neg (by simp [toNext, atNext])]
        have := ih next (front ++ [chunk]) (next :: rest) (by simp [split]) ⟨rfl, linked.2⟩
          (Or.inl ⟨rfl, tiled.2⟩) (by simp at enough ⊢; omega)
        rw [toNext]
        simpa using this

/-- `ChunkList_validate` does not abort on a tiling. -/
theorem validate_spec (tiling : Tiling list start stop chunks) (fuel : Nat)
    (below : stop < sizeModulus) (enough : chunks.length < fuel) : ChunkList.validate list stop fuel = .ok () := by
  have first : list.first = start := by
    cases chunks with
    | nil => exact absurd rfl tiling.ne_nil
    | cons chunk chunks => exact tiling.linked.1.trans tiling.tiled.1.symm
  exact validateFrom_spec tiling below fuel list.first [] chunks rfl tiling.linked
    (Or.inl (by rw [first]; exact tiling.tiled)) enough

end Tiling
end ImmixGc.Guarantees
