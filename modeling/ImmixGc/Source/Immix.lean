import ImmixGc.Source.Collector

/-!
# The public interface: immix.c

The client's `GC_collect` calls `GC_collect_once`.
-/
namespace ImmixGc.Source

def setCollecting (g : Gc) (value : Bool) : Gc :=
  { g with collector := { g.collector with isCollecting := value } }

/-- `GC_collect_once`. -/
def collectOnce (env : Env) (g : Gc) : Result Gc := do
  let g ← Collector.collect env (setCollecting g true)
  let g ← g.localAllocators.foldlM (fun g self => LocalAllocator.reset noCollect self g) g
  .ok (setCollecting g false)

/-- `GC_malloc_with_atomic`, collecting with `GC_collect_once`. -/
def malloc (env : Env) (size atomic : Nat) (g : Gc) : Result (Nat × Gc) :=
  mallocWithAtomic env (collectOnce env) size atomic g

/-- `GC_free`. -/
def free (env : Env) (pointer : Nat) (g : Gc) : Result Gc :=
  if g.global.inLargeHeap pointer then
    GlobalAllocator.deallocateLarge (Collector.callFinalizer env) pointer g
  else .ok g

/-- `GC_register_finalizer`. -/
def registerFinalizer (pointer callback : Nat) (g : Gc) : Result Gc := do
  let object := pointer - sizeofObject
  let g ← GlobalAllocator.registerFinalizer object callback g
  .ok { g with history := g.history.register object callback }

/-- `memcpy` of `count` words. -/
def copyWords (memory : Memory) (target source : Nat) : Nat → Memory
  | 0 => memory
  | count + 1 =>
    let copied := copyWords memory target source count
    copied.store (target + count * wordSize) (copied.load (source + count * wordSize))

/-- `if (finalizer != NULL)` of `GC_realloc`: the new object takes the finalizer over. -/
def moveFinalizer (finalizer object newObject : Nat) (g : Gc) : Result Gc :=
  if finalizer ≠ null then do
    let g ← GlobalAllocator.registerFinalizer newObject finalizer g
    .ok { g with history := g.history.transfer object newObject }
  else .ok g

/-- `GC_realloc`. -/
def realloc (env : Env) (pointer size : Nat) (g : Gc) : Result (Nat × Gc) :=
  if pointer = null then malloc env size 0 g
  else if size = 0 then do
    let g ← free env pointer g
    .ok (null, g)
  else
    let object := pointer - sizeofObject
    let available := sizeSub (g.objectSize object) sizeofObject
    if size ≤ available then .ok (pointer, g)
    else do
      let (newPointer, g) ← malloc env size (g.objectAtomic object) g
      let g := { g with memory := copyWords g.memory newPointer pointer (available / wordSize) }
      let (finalizer, g) ← GlobalAllocator.deleteFinalizer object g
      let g ← moveFinalizer finalizer object (newPointer - sizeofObject) g
      let g ← free env pointer g
      .ok (newPointer, g)

/-- `GC_init_thread`: `self` is the struct `malloc` returned, with whatever it contained. -/
def initThread (env : Env) (self : Nat) (contents : LocalAllocator) (g : Gc) : Result Gc := do
  let g ← LocalAllocator.reset (collectOnce env) self (g.setLocal self contents)
  .ok { g with current := self, localAllocators := g.localAllocators ++ [self] }

/-- `GC_deinit_thread`: `Array_delete` removes the first occurrence. -/
def deinitThread (self : Nat) (g : Gc) : Gc :=
  { g with localAllocators := g.localAllocators.erase self }

/-- `GC_init`: the mappings, options and untouched memory are parameters. -/
def init (env : Env) (smallMap largeMap memoryLimit freeSpaceDivisor initialSize : Nat)
    (memory : Memory) (self : Nat) (contents : LocalAllocator) : Result Gc := do
  let (block, global) ← GlobalAllocator.init smallMap largeMap memoryLimit freeSpaceDivisor
    initialSize (fun _ => Block.init) (fun _ => ⟨null, 0, ⟨0, 0, 0⟩⟩)
  initThread env self contents
    { memory := memory
      block := block
      global := global
      localAllocator := fun _ => ⟨0, 0, 0, 0, 0, 0, 0⟩
      localAllocators := []
      current := null
      collector := ⟨[], false⟩
      rootScript := []
      history := History.empty }

end ImmixGc.Source
