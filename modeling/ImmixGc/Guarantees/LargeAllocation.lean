import ImmixGc.Guarantees.HeapGrowth

/-!
# What a large allocation returns

`allocateLarge` tries the chunk list up to three times, with a collection and a growth in
between. Where its size arithmetic does not wrap, the pointer it returns has the requested
bytes behind it in a chunk of its own.
-/
namespace ImmixGc.Guarantees
open Source Foundation

/-- The call runs a collection that leaves `after`: no chunk of the list fits, and enough was
allocated. -/
def Collects (env : Env) (size atomic : Nat) (g after : Gc) : Prop :=
  GlobalAllocator.tryAllocateLarge env (roundToNextMultiple size wordSize) atomic g = .ok (null, g) ∧
    GlobalAllocator.tryCollect (collectOnce env) g = .ok (true, after)

/-- The state the last attempt starts from: the state of the call, or the one after its collection
if there is one (`middle`), as it is or grown by one chunk. -/
structure LastAttempt (env : Env) (size atomic : Nat) (g middle before : Gc)
    (chunks chunksBefore : List Nat) : Prop where
  reached : middle = g ∧ (∀ after, ¬ Collects env size atomic g after) ∨
    Collects env size atomic g middle
  ok : LargeOk middle.global chunks
  grown : before = middle ∧ chunksBefore = chunks ∨
    GlobalAllocator.growLarge env (sizeAdd (roundToNextMultiple size wordSize) sizeofChunk) middle =
        .ok before ∧ chunksBefore = chunks ++ [middle.global.largeHeapStop]

/-- The last attempt hands out `chunk`: it was free and holds the requested bytes; what was
cut off is a free chunk, and the other chunks keep their headers and extents. -/
structure HandsOut (size atomic : Nat) (middle before g' : Gc) (chunks chunksBefore : List Nat)
    (pointer chunk : Nat) : Prop where
  address : pointer = Chunk.mutatorAddress chunk
  word : pointer % wordSize = 0
  member : chunk ∈ chunksBefore
  wasFree : (before.global.largeChunkList.chunk chunk).isAllocated = false
  room : pointer + size ≤ chunkStop g'.global.largeChunkList chunk
  served : ∃ chunks' objectSize, LargeOk g'.global chunks' ∧
    Served before.global.largeChunkList g'.global.largeChunkList before.global.largeHeapStart
      before.global.largeHeapStop chunksBefore chunks' chunk objectSize atomic
  others : ∀ c ∈ chunks, c ≠ chunk → ∃ link, g'.global.largeChunkList.chunk c =
    { middle.global.largeChunkList.chunk c with next := link }

/-- The contract of a large allocation that returned. -/
def MeetsContract (env : Env) (size atomic : Nat) (g : Gc) (pointer : Nat) (g' : Gc) : Prop :=
  ∃ middle before chunks chunksBefore chunk,
    LastAttempt env size atomic g middle before chunks chunksBefore ∧
    HandsOut size atomic middle before g' chunks chunksBefore pointer chunk

/-- The large heap of a reachable state is kept through a collection. -/
theorem LargeOk.spaceKeeps (env : Env) :
    SpaceKeeps env (fun size => size ≤ 2 ^ 64 - 24) (fun list => Collector.shortLimit list = false)
      fun g => ∃ chunks, LargeOk g.global chunks where
  congr := by
    rintro before after ⟨chunks, ok⟩ same list -
    exact ⟨chunks, (SameBounds.of_space same).largeOk ok (list.tiling ok.heap.tiling) fun _ h => h⟩
  growSmall := by
    rintro before after ⟨chunks, ok⟩ grown
    exact ⟨chunks, ok.growSmall grown⟩
  growLarge := by
    rintro before after increment ⟨chunks, ok⟩ grown
    exact ⟨_, ok.growLarge grown⟩
  allocate := by
    rintro before after size atomic pointer ⟨chunks, ok⟩ bound tried
    exact ok.tryAllocateLarge (roundToNextMultiple_word _)
      (by rw [(roundToNextMultiple_room bound).2]; exact Nat.le_add_left _ _) tried
  sweep := by
    rintro before list ⟨chunks, ok⟩ fits success
    obtain ⟨chunks', tiling, swept⟩ := ok.heap.tiling.sweep_ok fits success
    have same : SameBounds before (Collector.withChunkList before list) := ⟨rfl, rfl, rfl, rfl, rfl⟩
    exact ⟨chunks', same.largeOk ok tiling swept.subset⟩

section Attempts
variable {env : Env} {size atomic pointer : Nat} {g g' : Gc} {chunks : List Nat}

theorem tryAllocateLarge_ok (ok : LargeOk g.global chunks)
    (success : GlobalAllocator.tryAllocateLarge env size atomic g = .ok (pointer, g')) :
    pointer = null ∧ g' = g ∨ pointer ≠ null ∧ ∃ chunk ∈ chunks, ∃ list,
      pointer = Chunk.mutatorAddress chunk ∧ AllocatedFrom size atomic g chunk list g' := by
  unfold GlobalAllocator.tryAllocateLarge at success
  rcases tryAllocateLargeFrom_spec ok.heap size atomic env.fuel g.global.largeChunkList.first [] chunks
      rfl ok.heap.tiling.linked with ⟨running, -⟩ | ⟨none, -⟩ | ⟨c, member, list, g'', found, allocated⟩
  · rw [running] at success
    cases success
  · rw [none, Except.ok.injEq, Prod.mk.injEq] at success
    exact Or.inl ⟨success.1.symm, success.2.symm⟩
  · rw [found, Except.ok.injEq, Prod.mk.injEq] at success
    obtain ⟨rfl, rfl⟩ := success
    refine Or.inr ⟨?_, c, member, list, rfl, allocated⟩
    simp only [Chunk.mutatorAddress, sizeofChunk, null]
    omega

/-- Every successful call ends with an attempt that finds a chunk. -/
theorem allocateLarge_attempts (ok : LargeOk g.global chunks)
    (keeps : ∀ after, Collects env size atomic g after → ∃ chunks', LargeOk after.global chunks')
    (success : GlobalAllocator.allocateLarge env (collectOnce env) size atomic g = .ok (pointer, g')) :
    ∃ middle before chunks' chunksBefore,
      LastAttempt env size atomic g middle before chunks' chunksBefore ∧
      pointer ≠ null ∧ GlobalAllocator.tryAllocateLarge env (roundToNextMultiple size wordSize) atomic
        before = .ok (pointer, g') := by
  rw [GlobalAllocator.allocateLarge] at success
  dsimp only at success
  have growing : ∀ middle chunks', (middle = g ∧ (∀ after, ¬ Collects env size atomic g after) ∨
        Collects env size atomic g middle) → LargeOk middle.global chunks' →
      GlobalAllocator.growAndAllocateLarge env (roundToNextMultiple size wordSize) atomic middle =
        .ok (pointer, g') →
      ∃ middle before chunks' chunksBefore,
        LastAttempt env size atomic g middle before chunks' chunksBefore ∧
        pointer ≠ null ∧ GlobalAllocator.tryAllocateLarge env (roundToNextMultiple size wordSize)
          atomic before = .ok (pointer, g') := by
    intro middle chunks' here ok' success
    rw [GlobalAllocator.growAndAllocateLarge] at success
    obtain ⟨grown, growth, success⟩ := bind_eq_ok.mp success
    obtain ⟨⟨found, after⟩, tried, success⟩ := bind_eq_ok.mp success
    dsimp only at success
    split at success
    · next some =>
      simp only [Except.ok.injEq, Prod.mk.injEq] at success
      obtain ⟨rfl, rfl⟩ := success
      exact ⟨middle, grown, chunks', _, ⟨here, ok', Or.inr ⟨growth, rfl⟩⟩, some, tried⟩
    · cases success
  obtain ⟨⟨first, g₁⟩, tried, rest⟩ := bind_eq_ok.mp success
  clear success
  dsimp only at rest
  split at rest
  · next some =>
    simp only [Except.ok.injEq, Prod.mk.injEq] at rest
    obtain ⟨rfl, rfl⟩ := rest
    have none : ∀ after, ¬ Collects env size atomic g after := by
      rintro after ⟨failed, -⟩
      exact some (Prod.mk.inj (Except.ok.inj (tried.symm.trans failed))).1
    exact ⟨g, g, chunks, chunks, ⟨Or.inl ⟨rfl, none⟩, ok, Or.inl ⟨rfl, rfl⟩⟩, some, tried⟩
  next none =>
  obtain rfl := Classical.not_not.mp none
  obtain ⟨-, rfl⟩ := (tryAllocateLarge_ok ok tried).resolve_right fun found => found.1 rfl
  obtain ⟨⟨collected, g₂⟩, mayCollect, rest'⟩ := bind_eq_ok.mp rest
  clear rest
  dsimp only at rest'
  rcases tryCollect_cases mayCollect with ⟨rfl, rfl⟩ | ⟨rfl, -⟩
  · have declined : ∀ after, ¬ Collects env size atomic g₂ after := by
      rintro after ⟨-, collects⟩
      cases mayCollect.symm.trans collects
    rw [if_neg (by decide)] at rest'
    exact growing _ chunks (Or.inl ⟨rfl, declined⟩) ok rest'
  have collects : Collects env size atomic g₁ g₂ := ⟨tried, mayCollect⟩
  rw [if_pos rfl] at rest'
  obtain ⟨chunks₂, ok₂⟩ := keeps g₂ collects
  obtain ⟨⟨second, g₃⟩, retried, last⟩ := bind_eq_ok.mp rest'
  clear rest'
  dsimp only at last
  split at last
  · next some =>
    simp only [Except.ok.injEq, Prod.mk.injEq] at last
    obtain ⟨rfl, rfl⟩ := last
    exact ⟨g₂, g₂, chunks₂, chunks₂, ⟨Or.inr collects, ok₂, Or.inl ⟨rfl, rfl⟩⟩, some, retried⟩
  · next none =>
    obtain ⟨-, rfl⟩ := (tryAllocateLarge_ok ok₂ retried).resolve_right fun found => none found.1
    exact growing _ chunks₂ (Or.inr collects) ok₂ last

/-- What the attempt from `before` hands out. -/
theorem LastAttempt.handsOut {middle before : Gc} {chunks' chunksBefore : List Nat}
    (attempt : LastAttempt env size atomic g middle before chunks' chunksBefore)
    (bound : size ≤ 2 ^ 64 - 24) (some : pointer ≠ null)
    (success : GlobalAllocator.tryAllocateLarge env (roundToNextMultiple size wordSize) atomic
      before = .ok (pointer, g')) :
    ∃ chunk, HandsOut size atomic middle before g' chunks' chunksBefore pointer chunk := by
  obtain ⟨-, ok, grown⟩ := attempt
  have okBefore : LargeOk before.global chunksBefore := by
    rcases grown with ⟨rfl, rfl⟩ | ⟨growth, rfl⟩
    · exact ok
    · exact ok.growLarge growth
  have same : ∀ c ∈ chunks', c ∈ chunksBefore ∧ ∃ link, before.global.largeChunkList.chunk c =
      { middle.global.largeChunkList.chunk c with next := link } := by
    intro c member
    rcases grown with ⟨rfl, rfl⟩ | ⟨growth, rfl⟩
    · exact ⟨member, _, rfl⟩
    · obtain ⟨bytes, -, -, -, rfl⟩ := growLarge_ok ok.bounds growth
      refine ⟨List.mem_append_left _ member, grownLarge_chunk middle bytes ?_⟩
      rintro rfl
      exact ok.heap.tiling.stop_not_mem member
  obtain ⟨-, chunk, member, list, rfl, allocated⟩ :=
    (tryAllocateLarge_ok okBefore success).resolve_left fun none => some none.1
  obtain ⟨chunks'', served⟩ := allocated.served okBefore.heap member
  obtain ⟨enough, fits⟩ := roundToNextMultiple_room bound
  refine ⟨chunk, rfl, ?_, member, allocated.wasFree, ?_, ⟨chunks'', _, ?_, served⟩,
    fun c hc different => ?_⟩
  · have := okBefore.words chunk member
    simp only [Chunk.mutatorAddress, sizeofChunk, wordSize] at *
    omega
  · have := served.enough
    rw [fits] at this
    simp only [chunkStop, Chunk.mutatorAddress, sizeofChunk, chunkHeaderSize, sizeofObject] at *
    omega
  · exact okBefore.served member (roundToNextMultiple_word size)
      (by rw [fits]; exact Nat.le_add_left _ _) allocated served
  · obtain ⟨inBefore, link, kept⟩ := same c hc
    exact ⟨link, (served.others c inBefore different).trans kept⟩

/-- A contract that is met leaves room for rounding and a header below 2^64. -/
theorem MeetsContract.bound (meets : MeetsContract env size atomic g pointer g') :
    size ≤ 2 ^ 64 - 24 := by
  obtain ⟨middle, before, chunks', chunksBefore, chunk, -, handsOut⟩ := meets
  obtain ⟨rfl, -, member, -, room, ⟨chunks'', objectSize, ok', served⟩, -⟩ := handsOut
  have inside := (ok'.heap.tiling.inside (served.kept chunk member)).2
  have below := ok'.heap.tiling.bounded
  simp only [Chunk.mutatorAddress, sizeofChunk, sizeModulus] at *
  omega

/-- The collection before a contract that is met could measure the last chunk it merged. -/
theorem MeetsContract.measures {after last : Gc} (ok : LargeOk g.global chunks)
    (meets : MeetsContract env size atomic g pointer g') (collects : Collects env size atomic g after)
    (collecting : beforeSweep env g = .ok last)
    (requests : CallsRequest env (fun size => size ≤ 2 ^ 64 - 24) (finalizerCalls g last)) :
    Collector.shortLimit last.global.largeChunkList = false := by
  obtain ⟨middle, before, chunks', chunksBefore, chunk, attempt, -⟩ := meets
  obtain ⟨-, here⟩ := attempt.reached.resolve_left fun none => none.2 after collects
  obtain ⟨chunksLast, okLast⟩ :=
    (LargeOk.spaceKeeps env).beforeSweep ⟨chunks, ok⟩ collecting requests
  by_contra long
  rw [Bool.not_eq_false] at long
  rcases tryCollect_cases here with ⟨wrong, -⟩ | ⟨-, ran⟩
  · cases wrong
  · exact collectOnce_untiled collecting okLast long ran chunks' attempt.ok.heap.tiling

/-- A call of `allocateLarge` that returns meets its contract only if the size leaves room for
rounding and a header below 2^64. With finalizers that leave this room too it meets it exactly if,
besides, a collection that it runs does not merge up to a last chunk of 2^31 bytes or more. -/
theorem allocateLarge_contract (ok : LargeOk g.global chunks)
    (success : GlobalAllocator.allocateLarge env (collectOnce env) size atomic g = .ok (pointer, g')) :
    (MeetsContract env size atomic g pointer g' → size ≤ 2 ^ 64 - 24) ∧
    ((∀ after, Collects env size atomic g after → FinalizersRequest env (· ≤ 2 ^ 64 - 24) g) →
      (MeetsContract env size atomic g pointer g' ↔ size ≤ 2 ^ 64 - 24 ∧
        ∀ after, Collects env size atomic g after →
          SweepsList env (fun list => Collector.shortLimit list = false) g)) := by
  refine ⟨MeetsContract.bound, fun requests => ⟨fun meets => ⟨meets.bound, ?_⟩, ?_⟩⟩
  · intro after collects last collecting
    exact meets.measures ok collects collecting (requests after collects last collecting)
  · rintro ⟨bound, sweeps⟩
    obtain ⟨middle, before, chunks', chunksBefore, attempt, some, tried⟩ :=
      allocateLarge_attempts ok (fun after collects => by
        have fits : CollectionFits env g := ⟨sweeps after collects, requests after collects⟩
        rcases tryCollect_cases collects.2 with ⟨wrong, -⟩ | ⟨-, ran⟩
        · cases wrong
        · exact (LargeOk.spaceKeeps env).collectOnce ⟨chunks, ok⟩ fits ran) success
    obtain ⟨chunk, handsOut⟩ := attempt.handsOut bound some tried
    exact ⟨middle, before, chunks', chunksBefore, chunk, attempt, handsOut⟩

end Attempts

/-- A heap nearly full of two objects that nothing refers to. -/
def droppedObjects : Result Gc := do
  let g ← sampleInit
  let (_, g) ← GlobalAllocator.allocateLarge sampleEnv noCollect 40000 0 g
  let (_, g) ← GlobalAllocator.allocateLarge sampleEnv noCollect 20000 0 g
  .ok g

theorem droppedObjects_ok {g : Gc} (success : droppedObjects = .ok g) :
    ∃ chunks, LargeOk g.global chunks := by
  obtain ⟨start, init, rest⟩ := bind_eq_ok.mp success
  obtain ⟨⟨first, middle⟩, allocated, rest'⟩ := bind_eq_ok.mp rest
  obtain ⟨⟨second, last⟩, allocated', done⟩ := bind_eq_ok.mp rest'
  obtain ⟨block, global⟩ := sampleInit_global init
  have quiet : ∀ before after, noCollect before = .ok after →
      LargeRun sampleEnv (fun list => Collector.shortLimit list = false) before after := by
    intro before after ran
    cases ran
  have ok := largeRun_largeOk (.trans (.allocate (by decide) quiet allocated)
    (.allocate (by decide) quiet allocated')) ⟨_, init_largeOk sample_mapped global⟩
  exact Except.ok.inj done ▸ ok

/-- A request of 50000 bytes collects both and is cut out of the chunk that this leaves. -/
theorem smallRequest_meets_contract : ∃ g after pointer g', droppedObjects = .ok g ∧
    Collects sampleEnv 50000 1 g after ∧
    GlobalAllocator.allocateLarge sampleEnv (collectOnce sampleEnv) 50000 1 g = .ok (pointer, g') ∧
    MeetsContract sampleEnv 50000 1 g pointer g' := by
  have ends : (do
      let g ← droppedObjects
      let first ← GlobalAllocator.tryAllocateLarge sampleEnv (roundToNextMultiple 50000 wordSize) 1 g
      let collected ← GlobalAllocator.tryCollect (collectOnce sampleEnv) g
      let last ← beforeSweep sampleEnv g
      let served ← GlobalAllocator.allocateLarge sampleEnv (collectOnce sampleEnv) 50000 1 g
      .ok ((first.1, served.1), collected.1, Collector.shortLimit last.global.largeChunkList,
        finalizerCalls g last) : Result _) =
      .ok ((null, 2 ^ 41 + 32), true, false, []) := by decide +kernel
  obtain ⟨g, dropped, ends⟩ := bind_eq_ok.mp ends
  obtain ⟨⟨first, same⟩, tried, ends⟩ := bind_eq_ok.mp ends
  obtain ⟨⟨collected, after⟩, collecting, ends⟩ := bind_eq_ok.mp ends
  obtain ⟨last, sweeping, ends⟩ := bind_eq_ok.mp ends
  obtain ⟨⟨pointer, g'⟩, success, ends⟩ := bind_eq_ok.mp ends
  simp only [Except.ok.injEq, Prod.mk.injEq] at ends
  obtain ⟨⟨rfl, -⟩, rfl, short, calls⟩ := ends
  obtain ⟨chunks, ok⟩ := droppedObjects_ok dropped
  obtain ⟨-, rfl⟩ := (tryAllocateLarge_ok ok tried).resolve_right fun found => found.1 rfl
  have fits : CollectionFits sampleEnv same := .of_ends (by
    rw [sweeping, Except.map, short, calls])
  exact ⟨same, after, pointer, g', dropped, ⟨tried, collecting⟩, success,
    ((allocateLarge_contract ok success).2 fun _ _ => fits.2).2 ⟨by decide, fun _ _ => fits.1⟩⟩

theorem plainHeap_largeOk : LargeOk (plainHeap 65536 (2 ^ 40)).global [2 ^ 60] := by
  have ok : HeapsOk 0x100000 (2 ^ 60) 65536 (plainHeap 65536 (2 ^ 40)) [2 ^ 60] :=
    plainHeap_ok (by decide) (by decide) (by decide) (by decide)
  exact ⟨ok.largeHeap, ok.bounds, by decide, by decide, ok.room⟩

/-- A request of 2^64 - 1 bytes wraps to 0: the pointer returned has no byte behind it in its
chunk. A request of 2^31 + 2^20 bytes collects a dropped object of 2^31 - 32 bytes into a chunk
that seems to end far behind the heap: the object passes the end of the heap by 983072 bytes. -/
theorem hugeRequest_gets_nothing :
    LargeOk (plainHeap 65536 (2 ^ 40)).global [2 ^ 60] ∧
    (GlobalAllocator.allocateLarge sampleEnv noCollect (2 ^ 64 - 1) 0 (plainHeap 65536 (2 ^ 40))).map
      (fun r => (r.1, chunkStop r.2.global.largeChunkList (2 ^ 60))) =
      .ok (2 ^ 60 + 32, 2 ^ 60 + 32) ∧
    (do let g ← sampleInit
        let (_, g) ← GlobalAllocator.allocateLarge sampleEnv noCollect (2 ^ 31 - 32) 0 g
        let (pointer, g') ← GlobalAllocator.allocateLarge sampleEnv (collectOnce sampleEnv)
          (2 ^ 31 + 2 ^ 20) 0 g
        .ok (pointer + (2 ^ 31 + 2 ^ 20), g'.global.largeHeapStop,
          (g'.global.largeChunkList.chunk g'.global.largeChunkList.last).object.size) : Result _) =
      .ok (2 ^ 41 + 65536 + 2 ^ 31 + 983072, 2 ^ 41 + 65536 + 2 ^ 31, 18446744069413601232) :=
  ⟨plainHeap_largeOk, by decide +kernel, by decide +kernel⟩

end ImmixGc.Guarantees
