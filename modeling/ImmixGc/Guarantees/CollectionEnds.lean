import ImmixGc.Guarantees.ChunkSweep
import ImmixGc.Guarantees.FinalizerRuns
import ImmixGc.Guarantees.HeapUsage
import ImmixGc.Guarantees.ProbeTermination
import ImmixGc.Guarantees.SupplyEnds

/-!
# Collections end

From every state of a run `GC_collect_once` comes to an end: no loop of its phases runs forever,
and it returns unless one of a few checks fails. The bound on the loops that suffices is the
number of root regions and the memory limit.
-/
namespace ImmixGc.Guarantees
open Source Foundation

theorem check_ends (condition : Bool) (text : String) :
    Ends (fun stop => stop = .assertion text ∧ condition = false) (fun _ => condition = true)
      (check condition text) := by
  unfold check
  split
  · next holds => exact .ok holds
  · next fails => exact .error ⟨rfl, Bool.eq_false_iff.mpr fails⟩

/-! ## The large objects -/

section Chunks
variable {list : ChunkList}

theorem unmarkLargeFrom_total (chunks : List Nat) (fuel chunk : Nat) {list : ChunkList}
    (linked : Links (fun c => (list.chunk c).next) chunk chunks null) (away : null ∉ chunks)
    (enough : chunks.length < fuel) :
    ∃ list', Collector.unmarkLargeFrom fuel chunk list = .ok list' := by
  induction chunks generalizing fuel chunk list with
  | nil =>
    cases fuel with
    | zero => cases enough
    | succ fuel => exact ⟨list, by rw [Collector.unmarkLargeFrom, if_pos (Links.nil_iff.mp linked)]⟩
  | cons c rest ih =>
    cases fuel with
    | zero => cases enough
    | succ fuel =>
      obtain ⟨rfl, next⟩ := linked
      have some : chunk ≠ null := fun none => away (none ▸ List.mem_cons_self)
      rw [Collector.unmarkLargeFrom, if_neg some]
      refine ih fuel _ (next.congr fun x _ => ?_) (fun member => away (List.mem_cons_of_mem _ member))
        (Nat.lt_of_succ_lt_succ enough)
      dsimp only
      rw [store_apply]
      split
      · next here =>
        rw [here]
        rfl
      · rfl

/-- The one check of `ChunkList_merge`. -/
def mergeFailed : Stop := .assertion "size > chunk->object.size"

theorem merge_ends (chunk limit count : Nat) :
    Ends (fun stop => stop = mergeFailed) (fun _ => True) (ChunkList.merge list chunk limit count) := by
  unfold ChunkList.merge
  dsimp only
  generalize sizeSub (sizeSub (if limit = null then list.limit else limit) chunk) chunkHeaderSize = size
  have checked := check_ends (size > (list.chunk chunk).object.size) "size > chunk->object.size"
  apply Ends.bind (checked.widen fun stop failed => failed.1)
  exact fun _ _ _ => .ok trivial

/-- With a bound above the length of the list, only merging can stop a sweep. -/
theorem sweepFrom_ends (fuel chunk : Nat) {list : ChunkList} {rest : List Nat}
    (linked : Links (fun c => (list.chunk c).next) chunk rest null) (away : null ∉ rest)
    (distinct : rest.Nodup) (enough : rest.length < fuel) :
    Ends (fun stop => stop = mergeFailed) (fun _ => True) (ChunkList.sweepFrom fuel chunk list) := by
  induction fuel generalizing chunk list rest with
  | zero => cases enough
  | succ fuel ih =>
    cases rest with
    | nil =>
      rw [ChunkList.sweepFrom, if_pos (Links.nil_iff.mp linked)]
      exact .ok trivial
    | cons c rest =>
      obtain ⟨rfl, next⟩ := linked
      have some : chunk ≠ null := fun none => away (none ▸ List.mem_cons_self)
      have later : null ∉ rest := fun member => away (List.mem_cons_of_mem _ member)
      obtain ⟨fresh, distinct⟩ := List.nodup_cons.mp distinct
      rw [List.length_cons] at enough
      by_cases marked : (list.chunk chunk).isMarked = true
      · rw [ChunkList.sweepFrom, if_neg some, if_pos marked]
        exact ih _ next later distinct (by omega)
      rw [Tiling.sweepFrom_unmarked fuel some (Bool.eq_false_iff.mpr marked)]
      have next' : Links (fun c => ((Tiling.freeChunk list chunk).chunk c).next) (list.chunk chunk).next
          rest null := next.congr fun x _ => Tiling.freeChunk_next list chunk x
      obtain ⟨-, short⟩ | ⟨run, rest', limit, rfl, passed, -, behind, -⟩ :=
        Tiling.unmarkedRun_spec (Tiling.freeChunk list chunk) rest fuel _ 0 next' later
      · omega
      rw [List.mem_append, not_or] at fresh later
      have distinct' := (List.nodup_append.mp distinct).2.1
      have few : rest'.length < fuel := by
        rw [List.length_append] at enough
        omega
      rw [passed, ok_bind]
      dsimp only
      split
      · have ended := @merge_ends (Tiling.freeChunk list chunk) chunk limit (0 + run.length)
        refine ended.bind fun merged merging _ => ?_
        obtain ⟨size, -, same⟩ := merge_ok merging
        refine ih limit (behind.congr fun x member => ?_) later.2 distinct' few
        rw [same]
        dsimp only
        rw [store_other]
        rintro rfl
        exact fresh.2 member
      · exact ih limit behind later.2 distinct' few

/-- A sweep stops only in a large heap of 2^31 bytes or more. -/
theorem sweep_ends {start stop : Nat} {chunks : List Nat} (tiling : Tiling list start stop chunks)
    {fuel : Nat} (enough : chunks.length < fuel) :
    Ends (fun why => why = mergeFailed ∧ 2 ^ 31 ≤ stop - start) (fun _ => True)
      (ChunkList.sweep fuel list) := by
  have swept := sweepFrom_ends fuel _ tiling.linked tiling.null_not_mem tiling.nodup enough
  constructor
  · exact fun _ _ => trivial
  · intro why ends
    refine ⟨swept.stops why ends, ?_⟩
    by_contra short
    have fits : Tiling.TailFits list chunks := by
      rintro front previous last rfl - -
      have member : last ∈ front ++ [previous, last] := by simp
      have within := tiling.inside member
      simp only [chunkStop] at within
      omega
    obtain ⟨-, few⟩ | ⟨list', chunks', ran, -⟩ := tiling.sweep_spec fits fuel
    · omega
    · rw [ran] at ends
      cases ends

end Chunks

/-! ## The roots -/

/-- A region whose ends are swapped. -/
def badRegion : Stop := .assertion "top <= bottom"

theorem callCollectCallback_ends (g : Gc) :
    Ends (fun stop => stop = badRegion ∧ ∃ region ∈ g.rootScript.headD [], region.2 < region.1)
      (fun _ => True) (Collector.callCollectCallback g) := by
  unfold Collector.callCollectCallback
  split
  · exact .ok trivial
  · next regions rest script =>
    rw [script, List.headD_cons]
    apply Ends.foldlM regions trivial
    intro region member before _
    have checked := check_ends (region.1 ≤ region.2) "top <= bottom"
    apply Ends.bind (checked.widen fun stop failed => ?_)
    · exact fun _ _ _ => .ok trivial
    · obtain ⟨rfl, unordered⟩ := failed
      exact ⟨rfl, region, member, Nat.lt_of_not_le (of_decide_eq_false unordered)⟩

/-! ## The finalizers -/

section Finalizers
variable {env : Env} {g : Gc}

/-- Some finalizer of the program writes this word. -/
def SomeFinalizerWrites (env : Env) (word : Nat) : Prop :=
  ∃ callback pointer value, Action.store word value ∈ env.finalizer callback pointer

/-- A finalizer writes to a word that is not the client's. -/
def ForeignWrite (env : Env) (g : Gc) (stop : Stop) : Prop :=
  stop = .undefined "the client writes a word it does not own" ∧
    ∃ word, SomeFinalizerWrites env word ∧ g.clientOwns word = false

/-- Finalizers that only write stop at a word that is not the client's. -/
theorem callFinalizer_ends (stores : StoresOnly env) {before : Gc}
    (owned : before.clientOwns = g.clientOwns) (callback object : Nat) :
    Ends (ForeignWrite env g) (fun after => after.clientOwns = g.clientOwns)
      (Collector.callFinalizer env callback object before) := by
  unfold Collector.callFinalizer
  apply Ends.foldlM
  · exact owned
  · intro action member before owned
    obtain ⟨address, value, rfl⟩ := stores _ _ _ member
    rw [Collector.runAction, Gc.clientStore]
    split
    · exact .ok owned
    · next foreign =>
      rw [owned, Bool.not_eq_true] at foreign
      exact .error ⟨rfl, address, ⟨_, _, _, member⟩, foreign⟩

/-- The loop of `GC_Hash_deleteIf` ends as its callback does, and keeps the counters. -/
theorem deleteIfLoop_ends {σ : Type} {allowed : Stop → Prop} {invariant : σ → Prop}
    {callback : Nat → Nat → σ → Result (Bool × σ)}
    (called : ∀ key value before, invariant before →
      Ends allowed (fun answer => invariant answer.2) (callback key value before))
    (count index : Nat) {table : Hash} {state : σ} (counted : Counted table)
    (inside : index + count ≤ table.mask + 1) (start : invariant state) :
    Ends allowed (fun last => Counted last.1 ∧ invariant last.2)
      (Hash.deleteIfLoop callback count index table state) := by
  induction count generalizing index table state with
  | zero => exact .ok ⟨counted, start⟩
  | succ count ih =>
    rw [Hash.deleteIfLoop]
    split
    · next allocated =>
      apply Ends.bind (called _ _ state start)
      rintro ⟨remove, next⟩ - holds
      dsimp only
      split
      · exact ih (index + 1) (counted.bury (by omega) allocated) (by dsimp only; omega) holds
      · exact ih (index + 1) counted (by omega) holds
    · exact ih (index + 1) counted (by omega) start

/-- Why the finalizer phase does not return. -/
inductive FinalizerStop (env : Env) (g : Gc) : Stop → Prop where
  | calloc : FinalizerStop env g callocFailed
  | foreign {stop : Stop} (write : ForeignWrite env g stop) : FinalizerStop env g stop

theorem finalizeObjects_ends (quiet : StoresOnly env ∨ Hash.create 8 = .ok g.global.finalizers)
    (balanced : Balanced g.global.finalizers) :
    Ends (FinalizerStop env g) (fun g' => Balanced g'.global.finalizers)
      (Collector.finalizeObjects env g) := by
  rcases quiet with stores | empty
  · unfold Collector.finalizeObjects Hash.deleteIf
    have called : ∀ key value before, before.clientOwns = g.clientOwns →
        Ends (FinalizerStop env g) (fun answer => answer.2.clientOwns = g.clientOwns)
          (Collector.finalizeObjectCallback env key value before) := by
      intro key value before owned
      unfold Collector.finalizeObjectCallback
      split
      · have ended := callFinalizer_ends stores owned value key
        exact (ended.widen fun _ => .foreign).bind fun _ _ kept => .ok kept
      · exact .ok owned
    have looped := @deleteIfLoop_ends _ _ (fun last : Gc => last.clientOwns = g.clientOwns) _ called
      (g.global.finalizers.mask + 1) 0 _ _ balanced.counted (by omega) rfl
    rw [bind_assoc]
    apply Ends.bind looped
    rintro ⟨swept, last⟩ - ⟨counted, -⟩
    obtain ⟨cleared, ran, balanced⟩ | failed := clearTombstones_counted counted
    · dsimp only at ran ⊢
      rw [ran]
      exact .ok balanced
    · dsimp only at failed ⊢
      rw [failed]
      exact .error .calloc
  · rw [finalizeObjects_empty env empty]
    exact .ok balanced

/-- Finalizers that only write leave the collector and the allocators alone. -/
theorem callFinalizer_collector (stores : StoresOnly env) {callback object : Nat} {g' : Gc}
    (success : Collector.callFinalizer env callback object g = .ok g') :
    g'.collector = g.collector ∧ g'.localAllocator = g.localAllocator := by
  refine @callFinalizer_keeps _
    (fun last => last.collector = g.collector ∧ last.localAllocator = g.localAllocator) _ _ _ _
    (fun _ same => same) (fun before after address value same stored => ?_) (Or.inl stores) ⟨rfl, rfl⟩
    success
  rw [Gc.clientStore] at stored
  split at stored
  · exact Except.ok.inj stored ▸ same
  · cases stored

theorem finalizeObjects_collector {g' : Gc}
    (quiet : StoresOnly env ∨ Hash.create 8 = .ok g.global.finalizers)
    (success : Collector.finalizeObjects env g = .ok g') :
    g'.collector = g.collector ∧ g'.localAllocator = g.localAllocator := by
  rcases quiet with stores | empty
  · refine @finalizeObjects_keeps _
      (fun last => last.collector = g.collector ∧ last.localAllocator = g.localAllocator) _ _
      (fun _ _ same => same) (fun _ _ _ _ same called => ?_) ⟨rfl, rfl⟩ success
    obtain ⟨collector, locals⟩ := callFinalizer_collector stores called
    exact ⟨collector.trans same.1, locals.trans same.2⟩
  · rw [finalizeObjects_empty env empty] at success
    rw [Except.ok.inj success]
    exact ⟨rfl, rfl⟩

end Finalizers

/-! ## The whole collection -/

/-- What the phases before the sweep leave alone. -/
structure Paused (g₀ g : Gc) : Prop where
  space : space g.global = space g₀.global
  live : g.history.live = g₀.history.live
  finalizers : g.global.finalizers = g₀.global.finalizers
  collecting : g.collector.isCollecting = g₀.collector.isCollecting
  locals : g.localAllocator = g₀.localAllocator

theorem Paused.congr {g₀ g g' : Gc} (paused : Paused g₀ g)
    (same : Guarantees.space g'.global = Guarantees.space g.global)
    (live : g'.history.live = g.history.live)
    (finalizers : g'.global.finalizers = g.global.finalizers)
    (collecting : g'.collector.isCollecting = g.collector.isCollecting)
    (locals : g'.localAllocator = g.localAllocator) : Paused g₀ g' :=
  ⟨same.trans paused.space, live.trans paused.live, finalizers.trans paused.finalizers,
    collecting.trans paused.collecting, locals.trans paused.locals⟩

theorem Paused.markingKeeps (g₀ : Gc) : MarkingKeeps (Paused g₀) where
  chunks _ _ paused _ := paused.congr rfl rfl rfl rfl rfl
  roots _ _ paused := paused.congr rfl rfl rfl rfl rfl
  script _ _ paused := paused.congr rfl rfl rfl rfl rfl
  find g g' pointer paused _ success := by
    rcases findAndMark_cases success with rfl | ⟨i, object, -, -, rfl⟩
    · exact paused
    · rw [Collector.scanObject]
      split <;> exact paused.congr rfl rfl rfl rfl rfl

/-- The words of the client are the words outside the heaps and in live objects. -/
theorem Paused.clientOwns {g₀ g : Gc} (paused : Paused g₀ g) : g.clientOwns = g₀.clientOwns := by
  obtain ⟨same, live, -, -, -⟩ := paused
  simp only [Guarantees.space, Space.mk.injEq] at same
  funext word
  rw [Gc.clientOwns, Gc.clientOwns, live, GlobalAllocator.inSmallHeap, GlobalAllocator.inSmallHeap,
    GlobalAllocator.inLargeHeap, GlobalAllocator.inLargeHeap, same.1, same.2.1, same.2.2.2.1,
    same.2.2.2.2.1]

/-- Different addresses of a range are no more than its length. -/
theorem length_le_of_range {xs : List Nat} (distinct : xs.Nodup) {start stop : Nat}
    (inside : ∀ x ∈ xs, start ≤ x ∧ x < stop) : xs.length ≤ stop - start := by
  have within : xs ⊆ List.range' start (stop - start) := by
    intro x member
    obtain ⟨low, high⟩ := inside x member
    exact List.mem_range'_1.mpr ⟨low, by omega⟩
  simpa using (List.subperm_of_subset distinct within).length_le

/-- Every chunk takes a byte at least. -/
theorem Tiling.length_le {list : ChunkList} {start stop : Nat} {chunks : List Nat}
    (tiling : Tiling list start stop chunks) : chunks.length ≤ stop - start := by
  have few := Links.length_le (Tiling.grows list _) tiling.tiled
  omega

/-- In a heap of less than 2^31 bytes no chunk is too long for a merge. -/
theorem shortLimit_of_short {list : ChunkList} {start stop : Nat} {chunks : List Nat}
    (tiling : Tiling list start stop chunks) (short : stop - start < 2 ^ 31) :
    Collector.shortLimit list = false := by
  have walk := chunksFrom_eq _ list.size list.first tiling.linked tiling.null_not_mem
    (Nat.le_of_eq tiling.size.symm)
  rw [Collector.shortLimit, walk]
  split
  · next last previous rest reversed =>
    have member : last ∈ chunks := by
      rw [← List.mem_reverse, reversed]
      exact List.mem_cons_self
    have within := tiling.inside member
    simp only [chunkStop] at within
    simp only [Bool.and_eq_false_iff, decide_eq_false_iff_not]
    right
    omega
  · rfl

/-- The heap has no room for more objects than it has bytes. -/
theorem ObjectHeap.objects_length {setup : Setup} {g : Gc} {layout : Nat → Layout}
    {extent : Nat → Nat} {chunks : List Nat} (heap : ObjectHeap g layout extent chunks)
    (bounds : HeapBounds setup.smallMap setup.largeMap g.global) :
    (objects g layout chunks).length ≤ g.global.memoryLimit ∧
      chunks.length ≤ g.global.memoryLimit := by
  have small : (smallObjects g layout).length ≤ g.global.smallHeapStop - g.global.smallHeapStart := by
    refine length_le_of_range heap.smallObjects_nodup fun o member => ?_
    obtain ⟨b, hb, i, inLine⟩ := heap.mem_smallObjects.mp member
    obtain ⟨-, -, enough, -, low, high, first, last⟩ := heap.place hb inLine
    simp only [Block.start, sizeofObject] at *
    omega
  have large := heap.tiling.length_le
  have total := bounds.bounds.total
  have smallStop := bounds.smallStop
  have largeStop := bounds.largeStop
  have fewer : (largeObjects g chunks).length ≤ chunks.length := by
    rw [largeObjects, List.length_map]
    exact List.length_filter_le _ _
  rw [objects, List.length_append]
  omega

/-- Why a collection does not return. -/
inductive CollectionStop (env : Env) (g : Gc) : Stop → Prop where
  | region (swapped : ∃ region ∈ g.rootScript.headD [], region.2 < region.1) :
      CollectionStop env g badRegion
  | finalizer {stop : Stop} (why : FinalizerStop env g stop) : CollectionStop env g stop
  /-- `Chunk_size` of a last chunk that does not fit an `int`. -/
  | merge (long : 2 ^ 31 ≤ g.global.largeHeapSize) : CollectionStop env g mergeFailed
  | supply {stop : Stop} (why : SupplyStop g.global.memoryLimit stop) : CollectionStop env g stop

theorem Rested.finalizeObjects {env : Env} {divisor size : Nat} {g g' : Gc}
    (quiet : StoresOnly env ∨ Hash.create 8 = .ok g.global.finalizers)
    (rested : Rested True divisor size g) (success : Collector.finalizeObjects env g = .ok g') :
    Rested True divisor size g' := by
  rcases quiet with stores | empty
  · exact finalizeObjects_keeps (fun _ _ rested => rested.congr rfl)
      (fun _ _ _ _ rested called => rested.callFinalizer stores called) rested success
  · rw [finalizeObjects_empty env empty] at success
    exact Except.ok.inj success ▸ rested

/-- The heap after unmarking: no mark is set, and the list walks of the mark phase end. -/
structure ReadyToMark (setup : Setup) (g unmarked : Gc) (layout : Nat → Layout) (extent : Nat → Nat)
    (chunks : List Nat) : Prop where
  paused : Paused (setCollecting g true) unmarked
  script : unmarked.rootScript = g.rootScript
  roots : unmarked.collector.roots = g.collector.roots
  heap : ObjectHeap unmarked layout extent chunks
  clear : MarksClear unmarked layout chunks
  walks : chunks.length < setup.env.fuel
  rested : Rested False g.global.freeSpaceDivisor g.global.heapSize unmarked

/-- The state that the finalizers are called in. -/
structure ReadyToFinalize (setup : Setup) (g marked : Gc) (chunks : List Nat) : Prop where
  marking : Marking setup marked
  large : LargeLive setup.env chunks marked
  paused : Paused (setCollecting g true) marked
  rested : Rested True g.global.freeSpaceDivisor g.global.heapSize marked

section Collections
variable {setup : Setup} {g g' rooted marked : Gc} {layout : Nat → Layout} {extent : Nat → Nat}
  {chunks : List Nat} {list : ChunkList}

/-- `Collector_unmarkLargeObjects` ends, in a list no longer than the heap. -/
theorem HeapOk.unmark_ends (ok : HeapOk setup g) (enough : g.global.memoryLimit < setup.env.fuel) :
    ∃ list layout extent chunks,
      Collector.unmarkLargeFrom setup.env.fuel
        (Collector.unmarkSmallObjects (setCollecting g true)).global.largeChunkList.first
        (Collector.unmarkSmallObjects (setCollecting g true)).global.largeChunkList = .ok list ∧
      LargeLive setup.env chunks g ∧
      ReadyToMark setup g
        (Collector.withChunkList (Collector.unmarkSmallObjects (setCollecting g true)) list) layout
        extent chunks := by
  have ok₁ : HeapOk setup (setCollecting g true) := ok.congr rfl rfl rfl rfl rfl (.refl _)
  obtain ⟨layout, extent, chunks, laid, large₁, heap⟩ := ok₁.objectHeap
  have shape := ok₁.small.shape
  have short : chunks.length ≤ g.global.memoryLimit := (heap.objects_length shape.bounds).2
  obtain ⟨list, unmarking⟩ : ∃ list, Collector.unmarkLargeFrom setup.env.fuel
      (Collector.unmarkSmallObjects (setCollecting g true)).global.largeChunkList.first
      (Collector.unmarkSmallObjects (setCollecting g true)).global.largeChunkList = .ok list := by
    rw [laid.unmarkSmallObjects.global]
    exact unmarkLargeFrom_total chunks _ _ heap.tiling.linked heap.tiling.null_not_mem (by omega)
  obtain ⟨walks, heap', clear, -⟩ := laid.unmark shape large₁ unmarking
  refine ⟨list, layout, extent, chunks, unmarking, ?_, ?_, ?_, ?_, heap', clear, walks, ?_⟩
  · exact large₁.congr ⟨rfl, rfl, rfl, rfl, rfl⟩ (.refl _) (.refl _) (Or.inr rfl)
  all_goals
    obtain ⟨memory, block, same⟩ := unmarkSmallObjects_frame (setCollecting g true)
    rw [same]
  · exact ⟨rfl, rfl, rfl, rfl, rfl⟩
  · rfl
  · rfl
  · exact ⟨⟨shape.bounds.sized.limit, shape.bounds.sized.within⟩, rfl, le_rfl, fun wrong => wrong.elim⟩

/-- The mark loop ends: every object is pushed at most once, and the heap has no room for more
objects than it has bytes. -/
theorem ReadyToMark.mark_ends {unmarked : Gc} (start : ReadyToMark setup g unmarked layout extent chunks)
    (bounds : HeapBounds setup.smallMap setup.largeMap g.global) (idle : g.collector.roots = [])
    (enough : (g.rootScript.headD []).length + g.global.memoryLimit < setup.env.fuel)
    (rooting : Collector.callCollectCallback unmarked = .ok rooted) :
    ∃ marked, Collector.mark setup.env setup.env.fuel rooted = .ok marked := by
  have registered := callCollectCallback_ok rooting
  have few := (start.heap.objects_length (bounds.congr start.paused.space)).1
  have limit : unmarked.global.memoryLimit = g.global.memoryLimit :=
    congrArg Space.limit start.paused.space
  have stack : rooted.collector.roots = (g.rootScript.headD []).reverse := by
    rw [registered, start.script, start.roots, idle, List.append_nil]
  have sim : Simulates unmarked layout chunks rooted ⟨[], [], rooted.collector.roots⟩ := by
    rw [registered]
    exact { Simulates.start unmarked layout chunks with roots := rfl }
  obtain ⟨marked, nodes, marking, -⟩ := Simulates.mark start.clear start.heap start.walks
    setup.env.fuel sim (WordGraph.Tricolour.start _ _) rfl (by
      rw [stack, List.length_reverse, List.length_nil]
      omega)
  exact ⟨marked, marking⟩

/-- What marking leaves to the finalizers. -/
theorem HeapOk.readyToFinalize (ok : HeapOk setup g) (large : LargeLive setup.env chunks g)
    (unmarking : Collector.unmarkLargeFrom setup.env.fuel
      (Collector.unmarkSmallObjects (setCollecting g true)).global.largeChunkList.first
      (Collector.unmarkSmallObjects (setCollecting g true)).global.largeChunkList = .ok list)
    (start : ReadyToMark setup g
      (Collector.withChunkList (Collector.unmarkSmallObjects (setCollecting g true)) list) layout
      extent chunks)
    (rooting : Collector.callCollectCallback
      (Collector.withChunkList (Collector.unmarkSmallObjects (setCollecting g true)) list) = .ok rooted)
    (marking : Collector.mark setup.env setup.env.fuel rooted = .ok marked) :
    ReadyToFinalize setup g { marked with global := marked.global.resetCounters } chunks := by
  constructor
  · exact ok.small.walkable.marked rooting marking
  · exact large.marked unmarking rooting marking
  · have keeps := Paused.markingKeeps (setCollecting g true)
    have kept := keeps.mark _ (keeps.callCollectCallback start.paused rooting) marking
    exact kept.congr rfl rfl rfl rfl rfl
  · have keeps := @Rested.markingKeeps False g.global.freeSpaceDivisor g.global.heapSize
    have kept := keeps.mark _ (keeps.callCollectCallback start.rested rooting) marking
    exact ⟨⟨kept.sized.limit, kept.sized.within⟩, kept.divided, kept.grown, fun _ => rfl⟩

/-- Finalizing and sweeping end. -/
theorem ReadyToFinalize.finish_ends (state : ReadyToFinalize setup g marked chunks)
    (balanced : Balanced g.global.finalizers) (walks : chunks.length < setup.env.fuel)
    (overflow : ∀ self ∈ setup.registered, SlotOk g (.overflow self)) :
    Ends (CollectionStop setup.env g)
      (Restocking setup (g.global.largeHeapSize < 2 ^ 31) g.global.memoryLimit
        g.global.freeSpaceDivisor g.global.heapSize)
      (Collector.finalizeObjects setup.env marked >>= Collector.sweep setup.env) := by
  obtain ⟨counted, large, paused, rested⟩ := state
  have quiet := counted.shape.finalizers
  have ended := finalizeObjects_ends quiet (paused.finalizers ▸ balanced)
  apply Ends.bind (ended.widen fun stop why => ?_)
  · intro finalized finalizing _
    have final := Finalized.finalizeObjects counted finalizing
    have stock := (counted.finalizeObjects finalizing).sweep
    have large' := large.finalizeObjects finalizing
    have rested' := rested.finalizeObjects quiet finalizing
    obtain ⟨collector, locals⟩ := finalizeObjects_collector quiet finalizing
    obtain ⟨memory, block, free, recyclable, recycled⟩ :=
      recycleBlocks_frame (Collector.noteSweep finalized)
    have kept : Collector.shortLimit finalized.global.largeChunkList = false → ∀ list',
        ChunkList.sweep setup.env.fuel (GlobalAllocator.recycleBlocks
          (Collector.noteSweep finalized)).global.largeChunkList = .ok list' →
        ∃ chunks', LargeLive setup.env chunks' (Collector.withChunkList
          (GlobalAllocator.recycleBlocks (Collector.noteSweep finalized)) list') :=
      fun fits list' ran => large'.sweep fits ran
    unfold Collector.sweep
    dsimp only
    rw [recycled] at stock kept ⊢
    have same := final.space.trans paused.space
    have stop := large'.ok.heap.stop
    have bytes : finalized.global.largeHeapSize = g.global.largeHeapSize :=
      congrArg Space.largeSize same
    have swept := sweep_ends large'.ok.heap.tiling walks
    apply Ends.bind (swept.widen fun stop why => ?_)
    · intro list' ran _
      refine .ok ⟨?_, ?_, congrArg Space.limit same, rested'.congr rfl, fun self member => ?_,
        fun fits => kept (shortLimit_of_short large'.ok.heap.tiling (by omega)) list' ran⟩
      · exact stock.congr rfl rfl rfl rfl (.refl _) rfl ⟨rfl, rfl⟩ fun _ none => none.elim
      · show finalized.collector.isCollecting = true
        rw [collector]
        exact paused.collecting
      · exact (overflow self member).same (.of_local (congrFun (locals.trans paused.locals) self))
    · obtain ⟨rfl, long⟩ := why
      exact .merge (by omega)
  · cases why with
    | calloc => exact .finalizer .calloc
    | foreign write =>
      rw [ForeignWrite, paused.clientOwns] at write
      exact .finalizer (.foreign write)

/-- The phases of `GC_Collector_collect`, each of which ends. -/
theorem HeapOk.collect_ends (ok : HeapOk setup g) (balanced : Balanced g.global.finalizers)
    (idle : g.collector.roots = [])
    (enough : (g.rootScript.headD []).length + g.global.memoryLimit < setup.env.fuel) :
    Ends (CollectionStop setup.env g)
      (Restocking setup (g.global.largeHeapSize < 2 ^ 31) g.global.memoryLimit
        g.global.freeSpaceDivisor g.global.heapSize)
      (Collector.collect setup.env (setCollecting g true)) := by
  obtain ⟨list, layout, extent, chunks, unmarking, large, start⟩ := ok.unmark_ends (by omega)
  unfold Collector.collect Collector.unmarkLargeObjects
  dsimp only
  rw [unmarking, ok_bind, ok_bind]
  have rooted_ends := callCollectCallback_ends
    (Collector.withChunkList (Collector.unmarkSmallObjects (setCollecting g true)) list)
  rw [start.script] at rooted_ends
  apply Ends.bind (rooted_ends.widen fun stop why => why.1 ▸ .region why.2)
  intro rooted rooting _
  obtain ⟨marked, marking⟩ := start.mark_ends ok.small.shape.bounds idle enough rooting
  rw [marking, ok_bind]
  exact (ok.readyToFinalize large unmarking start rooting marking).finish_ends balanced start.walks
    fun _ member => ok.small.slotOk (x := .overflow _) member

/-- A collection that returned. Whatever was set on the way, its lists can be used, and so can
the overflow blocks. -/
structure Collected (setup : Setup) (g g' : Gc) : Prop where
  idle : g'.collector.isCollecting = false
  stock : Stock setup (fun _ => False) g'
  limit : g'.global.memoryLimit = g.global.memoryLimit
  rested : Rested True g.global.freeSpaceDivisor g.global.heapSize g'
  overflow : ∀ self ∈ setup.registered, SlotOk g' (.overflow self)
  large : g.global.largeHeapSize < 2 ^ 31 → ∃ chunks, LargeLive setup.env chunks g'

/-- After the sweep every registered allocator gets its blocks. -/
theorem HeapOk.collectOnce_ends (ok : HeapOk setup g) (balanced : Balanced g.global.finalizers)
    (idle : g.collector.roots = [])
    (enough : (g.rootScript.headD []).length + g.global.memoryLimit < setup.env.fuel) :
    Ends (CollectionStop setup.env g) (Collected setup g) (Source.collectOnce setup.env g) := by
  unfold Source.collectOnce
  apply Ends.bind (ok.collect_ends balanced idle enough)
  intro swept _ restocking
  have resets := restocking.resets swept.localAllocators
  apply Ends.bind (resets.widen fun _ => .supply)
  intro last _ kept
  refine .ok ⟨rfl, ?_, kept.limit, kept.rested.congr rfl, fun self member => ?_, fun fits => ?_⟩
  · exact kept.stock.congr rfl rfl rfl rfl (.refl _) rfl ⟨rfl, rfl⟩ fun _ none => none.elim
  · exact (kept.overflow self member).same (.of_local rfl)
  · obtain ⟨chunks, large⟩ := kept.large fits
    exact ⟨chunks, large.congr ⟨rfl, rfl, rfl, rfl, rfl⟩ (.refl _) (List.Sublist.refl _) (Or.inr rfl)⟩

end Collections

/-! ## Runs -/

/-- Between two calls no region waits on the mark stack, and the counters of the table of
finalizers are right. -/
structure Idle (g : Gc) : Prop where
  roots : g.collector.roots = []
  balanced : Balanced g.global.finalizers

section Idle
variable {setup : Setup} {g g' : Gc}

theorem Idle.congr (idle : Idle g) (roots : g'.collector.roots = g.collector.roots)
    (finalizers : g'.global.finalizers = g.global.finalizers) : Idle g' :=
  ⟨roots.trans idle.roots, finalizers ▸ idle.balanced⟩

/-- A table after an insertion or a deletion that returned. -/
theorem Idle.table (idle : Idle g) {table : Hash} (balanced : Balanced table) :
    Idle { g with global := { g.global with finalizers := table } } := ⟨idle.roots, balanced⟩

theorem Idle.registerFinalizer (idle : Idle g) {object callback : Nat}
    (success : GlobalAllocator.registerFinalizer object callback g = .ok g') : Idle g' := by
  rw [GlobalAllocator.registerFinalizer] at success
  obtain ⟨table, inserted, done⟩ := bind_eq_ok.mp success
  obtain ⟨table', ran, balanced⟩ | failed := insert_balanced object callback idle.balanced
  · rw [ran] at inserted
    rw [← Except.ok.inj done, ← Except.ok.inj inserted]
    exact idle.table balanced
  · rw [failed] at inserted
    cases inserted

theorem Idle.deleteFinalizer (idle : Idle g) {object finalizer : Nat}
    (success : GlobalAllocator.deleteFinalizer object g = .ok (finalizer, g')) : Idle g' := by
  obtain ⟨table, deleted, rfl⟩ := deleteFinalizer_ok success
  obtain ⟨value, table', ran, balanced⟩ | failed := delete_balanced object idle.balanced
  · rw [ran, Except.ok.injEq, Prod.mk.injEq] at deleted
    exact idle.table (deleted.2 ▸ balanced)
  · rw [failed] at deleted
    cases deleted

theorem HeapOk.idle_free (ok : HeapOk setup g) (idle : Idle g) {pointer : Nat}
    (success : Source.free setup.env pointer g = .ok g') : Idle g' := by
  obtain rfl | ⟨finalizer, deleted, called, release⟩ := free_cases success
  · exact idle
  obtain ⟨-, quiet⟩ := ok.deleteFinalizer release.deleting
  have kept := idle.deleteFinalizer release.deleting
  rw [release.freed]
  obtain ⟨-, rfl⟩ | ⟨some, calling⟩ := release.calling
  · exact kept.congr rfl rfl
  · have stores := quiet.resolve_left some
    have collector := (callFinalizer_collector stores calling).1
    have global := (callFinalizer_history stores calling).2
    have after : Idle called :=
      kept.congr (congrArg Collector.roots collector) (congrArg GlobalAllocator.finalizers global)
    exact after.congr rfl rfl

theorem Idle.moveFinalizer (idle : Idle g) {finalizer object newObject : Nat}
    (success : Source.moveFinalizer finalizer object newObject g = .ok g') : Idle g' := by
  rw [Source.moveFinalizer] at success
  split at success
  · obtain ⟨registered, registering, done⟩ := bind_eq_ok.mp success
    rw [← Except.ok.inj done]
    exact (idle.registerFinalizer registering).congr rfl rfl
  · exact Except.ok.inj success ▸ idle

theorem HeapOk.idle_collectOnce (ok : HeapOk setup g) (idle : Idle g)
    (success : Source.collectOnce setup.env g = .ok g') : Idle g' := by
  obtain ⟨marked, finalized, swept, phases⟩ := ok.collectOnce_finalizes success
  have quiet := phases.marking.shape.finalizers
  have balanced : Balanced marked.global.finalizers := phases.finalizers ▸ idle.balanced
  have collector := (finalizeObjects_collector quiet phases.finalizing).1
  constructor
  · rw [phases.resets.roots, phases.collector, collector, phases.roots]
  · rw [phases.resets.finalizers, phases.table]
    exact (finalizeObjects_ends quiet balanced).returns finalized phases.finalizing

theorem Idle.stepsKeep (env : Env) : StepsKeep env Idle where
  extended _ _ idle _ extended := idle.congr extended.roots extended.finalizers
  collected ok _ here idle success _ := by
    subst here
    exact ok.idle_collectOnce idle success

theorem HeapOk.idle_realloc (ok : HeapOk setup g) (idle : Idle g)
    (registered : g.current ∈ setup.registered) {pointer size newPointer : Nat}
    (bound : size ≤ 2 ^ 64 - 24)
    (success : Source.realloc setup.env pointer size g = .ok (newPointer, g')) (clear : NoFlag g') :
    Idle g' := by
  have start : Tracked setup Idle g g := .refl (Or.inr ok) fun _ => idle
  have keeps := Idle.stepsKeep setup.env
  obtain allocating | freeing | rfl | ⟨count, allocated, moved, move⟩ := realloc_cases success
  · exact ((start.malloc keeps registered bound allocating).1.kept clear).2
  · exact ok.idle_free idle freeing
  · exact idle
  have clear' : NoFlag allocated :=
    (clear.before ((FlagsUp.refl _).free move.freeing)).before move.flags
  obtain ⟨atomic, allocating⟩ := move.allocating
  obtain ⟨kept, out⟩ := start.malloc keeps registered bound allocating
  obtain ⟨ok', idle'⟩ := kept.kept clear'
  obtain ⟨finalizer, deleted, deleting, moving⟩ := move.moving
  have copied : Idle { allocated with
      memory := Source.copyWords allocated.memory newPointer pointer count } := idle'.congr rfl rfl
  have settled := (copied.deleteFinalizer deleting).moveFinalizer moving
  exact (move.ok ok' (out clear').2).idle_free settled move.freeing

end Idle

section Runs
variable {env : Env} {smallMap largeMap memoryLimit freeSpaceDivisor initialSize self : Nat}
  {memory : Memory} {contents : LocalAllocator} {start g : Gc}

theorem Idle.runKeeps (env : Env) : RunKeeps env (fun _ _ => True) Idle where
  toStepsKeep := Idle.stepsKeep env
  freed ok here idle success := by
    subst here
    exact ok.idle_free idle success
  reallocated ok here idle registered bound success clear := by
    subst here
    exact ok.idle_realloc idle registered bound success clear
  registered _ idle _ success := by
    rw [Source.registerFinalizer] at success
    obtain ⟨registered, registering, done⟩ := bind_eq_ok.mp success
    rw [← Except.ok.inj done]
    exact (idle.registerFinalizer registering).congr rfl rfl
  stored ok idle success _ := by
    rw [(ok.small.shape.owned_cases success).1]
    exact idle.congr rfl rfl
  framed idle _ global _ collector := idle.congr (by rw [collector]) (by rw [global])

theorem Idle.begins (created : Hash.create 8 = .ok g.global.finalizers)
    (roots : g.collector.roots = []) : Idle g := by
  refine ⟨roots, ?_⟩
  obtain ⟨table, ran, balanced⟩ | failed := create_balanced 8
  · rw [Except.ok.inj (created.symm.trans ran)]
    exact balanced
  · rw [failed] at created
    cases created

end Runs
end ImmixGc.Guarantees
