import ImmixGc.Guarantees.AllocationEnds

/-!
# The other calls end

`GC_free`, `GC_register_finalizer` and `GC_realloc` use the table of finalizers, whose probes
end. The calls stop where the table cannot grow, where a finalizer does, and where the allocation
inside `GC_realloc` does.
-/
namespace ImmixGc.Guarantees
open Source Foundation

section Calls
variable {setup : Setup} {g : Gc}

theorem Idle.registerFinalizer_ends (idle : Idle g) (object callback : Nat) :
    Ends (fun stop => stop = callocFailed) Idle
      (GlobalAllocator.registerFinalizer object callback g) := by
  refine ⟨fun _ success => idle.registerFinalizer success, fun stop ends => ?_⟩
  unfold GlobalAllocator.registerFinalizer at ends
  obtain ⟨table, ran, -⟩ | failed := insert_balanced object callback idle.balanced
  · rw [ran] at ends
    cases ends
  · rw [failed, error_bind] at ends
    exact (Except.error.inj ends).symm

theorem Idle.deleteFinalizer_ends (idle : Idle g) (object : Nat) :
    Ends (fun stop => stop = callocFailed) (fun answer => Idle answer.2)
      (GlobalAllocator.deleteFinalizer object g) := by
  refine ⟨fun _ success => idle.deleteFinalizer success, fun stop ends => ?_⟩
  unfold GlobalAllocator.deleteFinalizer at ends
  obtain ⟨value, table, ran, -⟩ | failed := delete_balanced object idle.balanced
  · rw [ran] at ends
    cases ends
  · rw [failed, error_bind] at ends
    exact (Except.error.inj ends).symm

theorem Idle.moveFinalizer_ends (idle : Idle g) (finalizer object newObject : Nat) :
    Ends (fun stop => stop = callocFailed) Idle
      (Source.moveFinalizer finalizer object newObject g) := by
  unfold Source.moveFinalizer
  split
  · apply Ends.bind (idle.registerFinalizer_ends newObject finalizer)
    exact fun _ _ registered => .ok (registered.congr rfl rfl)
  · exact .ok idle

/-- `GC_free` deletes a registration and calls at most its finalizer. -/
theorem HeapOk.free_ends (ok : HeapOk setup g) (idle : Idle g) (pointer : Nat) :
    Ends (FinalizerStop setup.env g) (fun _ => True) (Source.free setup.env pointer g) := by
  unfold Source.free
  split
  case isFalse => exact .ok trivial
  unfold GlobalAllocator.deallocateLarge
  apply Ends.bind ((idle.deleteFinalizer_ends _).widen fun _ why => why ▸ .calloc)
  rintro ⟨finalizer, deleted⟩ deleting -
  obtain ⟨-, quiet⟩ := ok.deleteFinalizer deleting
  obtain ⟨table, -, same⟩ := deleteFinalizer_ok deleting
  have owned : deleted.clientOwns = g.clientOwns := by
    rw [same]
    rfl
  dsimp only
  have called : Ends (ForeignWrite setup.env g) (fun _ => True)
      (GlobalAllocator.callIfSet (Collector.callFinalizer setup.env) finalizer
        (pointer - sizeofChunk + chunkHeaderSize) deleted) := by
    unfold GlobalAllocator.callIfSet
    split
    · next some =>
      exact (callFinalizer_ends (quiet.resolve_left some) owned _ _).imp fun _ _ => trivial
    · exact .ok trivial
  apply Ends.bind (called.widen fun _ => .foreign)
  exact fun _ _ _ => .ok trivial

/-- Why `GC_realloc` does not return. -/
inductive ReallocStop (env : Env) (g : Gc) : Stop → Prop where
  | allocation {stop : Stop} (why : CollectionStop env g stop) : ReallocStop env g stop
  | calloc : ReallocStop env g callocFailed
  /-- A finalizer that writes is called when the old object is freed. -/
  | foreign (writes : ∃ word, SomeFinalizerWrites env word) :
      ReallocStop env g (.undefined "the client writes a word it does not own")

/-- Freeing may come after the object was moved. -/
theorem ReallocStop.of_finalizer {env : Env} {moved g : Gc} {stop : Stop}
    (why : FinalizerStop env moved stop) : ReallocStop env g stop := by
  cases why with
  | calloc => exact .calloc
  | foreign write =>
    obtain ⟨rfl, word, writes, -⟩ := write
    exact .foreign ⟨word, writes⟩

/-- `GC_realloc` ends, if its allocation leaves both flags clear. -/
theorem Ready.realloc (ready : Ready setup g) (registered : g.current ∈ setup.registered)
    (exact : ExactLog setup.env) {size : Nat} (request : size ≤ 2 ^ 62 - 8) (pointer : Nat)
    (short : largeObjectSize - sizeofObject < size → g.global.largeHeapSize < 2 ^ 31)
    (calm : ∀ atomic newPointer allocated,
      Source.malloc setup.env size atomic g = .ok (newPointer, allocated) → NoFlag allocated) :
    Ends (ReallocStop setup.env g) (fun _ => True) (Source.realloc setup.env pointer size g) := by
  unfold Source.realloc
  split
  · exact (ready.malloc registered exact request 0 short).mono (fun _ => .allocation)
      fun _ _ _ => trivial
  split
  · apply Ends.bind ((ready.ok.free_ends ready.idle pointer).widen fun _ => .of_finalizer)
    exact fun _ _ _ => .ok trivial
  dsimp only
  split
  · exact .ok trivial
  next more =>
  apply Ends.bind ((ready.malloc registered exact request _ short).widen fun _ => .allocation)
  rintro ⟨newPointer, allocated⟩ allocating -
  have start : Tracked setup Idle g g := .refl (Or.inr ready.ok) fun _ => ready.idle
  obtain ⟨kept, out⟩ := start.malloc (Idle.stepsKeep setup.env) registered (by omega) allocating
  have clear := calm _ _ _ allocating
  obtain ⟨ok, idle⟩ := kept.kept clear
  dsimp only
  generalize sizeSub (g.objectSize (pointer - sizeofObject)) sizeofObject = available at *
  have fewer : available / wordSize * wordSize ≤ size := by
    simp only [wordSize]
    omega
  have ok' : HeapOk setup { allocated with
      memory := Source.copyWords allocated.memory newPointer pointer (available / wordSize) } :=
    (out clear).2.copied ok fewer
  have idle' : Idle { allocated with
      memory := Source.copyWords allocated.memory newPointer pointer (available / wordSize) } :=
    idle.congr rfl rfl
  apply Ends.bind ((idle'.deleteFinalizer_ends _).widen fun _ why => why ▸ .calloc)
  rintro ⟨finalizer, deleted⟩ deleting settled
  obtain ⟨kept', quiet⟩ := ok'.deleteFinalizer deleting
  dsimp only at settled ⊢
  apply Ends.bind ((settled.moveFinalizer_ends finalizer _ _).widen fun _ why => why ▸ .calloc)
  intro moved moving done
  apply Ends.bind (((kept'.moveFinalizer quiet moving).free_ends done pointer).widen
    fun _ => .of_finalizer)
  exact fun _ _ _ => .ok trivial

end Calls

section Runs
variable {env : Env} {smallMap largeMap memoryLimit freeSpaceDivisor initialSize self : Nat}
  {memory : Memory} {contents : LocalAllocator} {start g : Gc}

end Runs
end ImmixGc.Guarantees
