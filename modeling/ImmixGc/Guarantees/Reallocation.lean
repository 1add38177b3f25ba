import ImmixGc.Source.Immix
import ImmixGc.Guarantees.LargeAllocation

/-!
# Reallocation

`GC_realloc` returns its argument, or moves the object: it allocates, copies the payload,
hands the finalizer over and frees the old object. The allocators are assumed to return fresh
memory; everything after the allocation is followed here.
-/
namespace ImmixGc.Guarantees
open Source Foundation

/-- The object at a header address has the same size, flag and payload in both states. -/
structure SameObject (g g' : Gc) (object : Nat) : Prop where
  size : g'.objectSize object = g.objectSize object
  flag : g'.objectAtomic object = g.objectAtomic object
  payload : ∀ address, object + sizeofObject ≤ address → address < object + g.objectSize object →
    g'.memory.load address = g.memory.load address

/-- The header of an allocated object of either heap. -/
structure ObjectOk (g : Gc) (object : Nat) : Prop where
  address : chunkHeaderSize ≤ object
  header : sizeofObject ≤ g.objectSize object
  words : g.objectSize object % wordSize = 0
  fits : g.objectSize object < sizeModulus
  flag : g.objectAtomic object < 256
  space : g.global.inLargeHeap (object + sizeofObject) = g.global.inLargeHeap object

/-- What is assumed of an allocation of `size` bytes, with any collection inside it: the
retained objects stay as they were, and the memory returned is apart from them. -/
structure Fresh (retained : List Nat) (size : Nat) (g : Gc) (pointer : Nat) (g' : Gc) : Prop where
  kept : ∀ o ∈ retained, SameObject g g' o ∧
    g'.global.inLargeHeap o = g.global.inLargeHeap o ∧
    g'.global.inLargeHeap (o + sizeofObject) = g.global.inLargeHeap (o + sizeofObject)
  address : sizeofObject ≤ pointer
  room : size + sizeofObject ≤ g'.objectSize (pointer - sizeofObject)
  apart : ∀ o ∈ retained, o + g.objectSize o ≤ pointer - sizeofObject ∨
    pointer - sizeofObject + g'.objectSize (pointer - sizeofObject) ≤ o
  space : g'.global.inLargeHeap (pointer - sizeofObject) =
    decide (largeObjectSize - sizeofObject < size)

/-- The finalizer table holds an object in one slot at most. -/
def RegisteredOnce (table : Hash) (object : Nat) : Prop :=
  ∀ s ≤ table.mask, ∀ t ≤ table.mask,
    (table.entries s).status = .allocated → (table.entries s).key = object →
    (table.entries t).status = .allocated → (table.entries t).key = object → s = t

/-- No object of a list covers an address. -/
def Outside (g : Gc) (objects : List Nat) (address : Nat) : Prop :=
  ∀ o ∈ objects, address < o ∨ o + g.objectSize o ≤ address

/-- The client's finalizers write only outside some objects. -/
def WritesOutside (env : Env) (g : Gc) (objects : List Nat) : Prop :=
  ∀ callback pointer, ∀ action ∈ env.finalizer callback pointer,
    ∃ address value, action = .store address value ∧ Outside g objects address

/-- What `GC_realloc` promises about an object and the other retained ones. -/
structure Reallocated (retained : List Nat) (object size : Nat) (g : Gc) (newPointer : Nat)
    (g' : Gc) : Prop where
  usable : size + sizeofObject ≤ g'.objectSize (newPointer - sizeofObject)
  copied : ∀ i, wordSize * i < min (g.objectSize object - sizeofObject) size →
    g'.memory.load (newPointer + wordSize * i) =
      g.memory.load (Object.mutatorAddress object + wordSize * i)
  flag : g'.objectAtomic (newPointer - sizeofObject) = g.objectAtomic object
  stays : newPointer = Object.mutatorAddress object ↔
    size ≤ g.objectSize object - sizeofObject
  freed : newPointer ≠ Object.mutatorAddress object → g.global.inLargeHeap object = true →
    (g'.global.largeChunkList.chunk (object - chunkHeaderSize)).isAllocated = false
  intact : ∀ o ∈ retained, SameObject g g' o

/-! ## Copying words -/

section Copy
variable (memory : Memory) (target source count : Nat)

theorem copyWords_outside {address : Nat}
    (outside : address < target ∨ target + wordSize * count ≤ address) :
    (copyWords memory target source count).load address = memory.load address := by
  induction count with
  | zero => rfl
  | succ count ih =>
    simp only [wordSize] at *
    rw [copyWords, Memory.store]
    dsimp only
    rw [store_other _ _ _ _ (by simp only [wordSize]; omega), ih (by omega)]

theorem copyWords_inside {index : Nat} (inside : index < count)
    (apart : source + wordSize * count ≤ target ∨ target + wordSize * count ≤ source) :
    (copyWords memory target source count).load (target + wordSize * index) =
      memory.load (source + wordSize * index) := by
  induction count with
  | zero => omega
  | succ count ih =>
    rw [copyWords, Memory.store]
    dsimp only
    by_cases last : index = count
    · -- the source word is read after the words before it were written
      subst last
      rw [Nat.mul_comm wordSize index, store_same,
        copyWords_outside _ _ _ _ (by simp only [wordSize] at *; omega)]
    · rw [store_other _ _ _ _ (by simp only [wordSize] at *; omega),
        ih (by omega) (by simp only [wordSize] at *; omega)]

end Copy

/-! ## States that differ in little -/

/-- Two states whose objects differ at most in the words of `touched`. -/
structure KeepsData (touched : Nat → Prop) (g g' : Gc) : Prop where
  memory : ∀ address, ¬ touched address → g'.memory.load address = g.memory.load address
  start : g'.global.largeHeapStart = g.global.largeHeapStart
  stop : g'.global.largeHeapStop = g.global.largeHeapStop
  chunks : ∀ chunk, (g'.global.largeChunkList.chunk chunk).object =
    (g.global.largeChunkList.chunk chunk).object

namespace KeepsData
variable {touched touched' : Nat → Prop} {g g' g'' : Gc}

theorem refl (touched : Nat → Prop) (g : Gc) : KeepsData touched g g :=
  ⟨fun _ _ => rfl, rfl, rfl, fun _ => rfl⟩

theorem trans (first : KeepsData touched g g') (second : KeepsData touched g' g'') :
    KeepsData touched g g'' :=
  ⟨fun a h => (second.memory a h).trans (first.memory a h), second.start.trans first.start,
    second.stop.trans first.stop, fun c => (second.chunks c).trans (first.chunks c)⟩

theorem mono (keeps : KeepsData touched g g') (wider : ∀ a, touched a → touched' a) :
    KeepsData touched' g g' :=
  ⟨fun a h => keeps.memory a fun t => h (wider a t), keeps.start, keeps.stop, keeps.chunks⟩

theorem inLargeHeap (keeps : KeepsData touched g g') (address : Nat) :
    g'.global.inLargeHeap address = g.global.inLargeHeap address := by
  rw [GlobalAllocator.inLargeHeap, keeps.start, keeps.stop, GlobalAllocator.inLargeHeap]

/-- The header of an object is two words. -/
theorem header {object : Nat} (keeps : KeepsData touched g g') (size : ¬ touched object)
    (flag : ¬ touched (object + 8)) :
    g'.objectSize object = g.objectSize object ∧ g'.objectAtomic object = g.objectAtomic object := by
  simp only [Gc.objectSize, Gc.objectAtomic, keeps.inLargeHeap, keeps.chunks, Object.size,
    Object.atomic, keeps.memory _ size, keeps.memory _ flag, and_self]

theorem sameObject {object : Nat} (keeps : KeepsData touched g g')
    (enough : sizeofObject ≤ g.objectSize object)
    (untouched : ∀ a, object ≤ a → a < object + g.objectSize object → ¬ touched a) :
    SameObject g g' object := by
  simp only [sizeofObject] at enough
  obtain ⟨size, flag⟩ := keeps.header (untouched object (Nat.le_refl _) (by omega))
    (untouched (object + 8) (by omega) (by omega))
  exact ⟨size, flag, fun a low high => keeps.memory a (untouched a (by
    simp only [sizeofObject] at low; omega) high)⟩

end KeepsData

theorem SameObject.trans {g g' g'' : Gc} {object : Nat} (first : SameObject g g' object)
    (second : SameObject g' g'' object) : SameObject g g'' object :=
  ⟨second.size.trans first.size, second.flag.trans first.flag, fun a low high =>
    (second.payload a low (by rw [first.size]; exact high)).trans (first.payload a low high)⟩

/-! ## The finalizer table of one object -/

/-- No allocated slot has the key. -/
def NoKey (table : Hash) (key : Nat) : Prop :=
  ∀ slot ≤ table.mask, (table.entries slot).status = .allocated → (table.entries slot).key ≠ key

theorem probe_ok {stop : Entry → Bool} {entries : Nat → Entry} {mask slot : Nat} (fuel i j : Nat)
    (success : Hash.probe stop entries mask fuel i j = .ok slot) :
    slot ≤ mask ∧ stop (entries slot) = true := by
  induction fuel generalizing i j with
  | zero => cases success
  | succ fuel ih =>
    rw [Hash.probe] at success
    split at success
    · next here =>
      rw [← Except.ok.inj success]
      exact ⟨Nat.and_le_right, here⟩
    · exact ih _ _ success

theorem calloc_zero {capacity : Nat} {entries : Nat → Entry}
    (success : Hash.calloc capacity = .ok entries) : entries = fun _ => Entry.zero := by
  rw [Hash.calloc] at success
  split at success
  · exact (Except.ok.inj success).symm
  · cases success

section Keys
variable {table table' : Hash} {key other value : Nat}

theorem NoKey.store (absent : NoKey table key) (entry : Entry) (slot used deleted : Nat)
    (different : entry.status = .allocated → entry.key ≠ key) :
    NoKey { entries := store table.entries slot entry, mask := table.mask, used := used,
            deleted := deleted } key := by
  intro s bound held
  simp only [store_apply] at held ⊢
  split at held <;> rename_i here
  · rw [if_pos here]
    exact different held
  · rw [if_neg here]
    exact absent s bound held

theorem rehash_noKey {old : Nat → Entry} {oldMask : Nat}
    (absentOld : ∀ s ≤ oldMask, (old s).status = .allocated → (old s).key ≠ key)
    (count index : Nat) (within : index + count ≤ oldMask + 1) (self : Hash)
    (absent : NoKey self key) (success : Hash.rehash old count index self = .ok table) :
    NoKey table key := by
  induction count generalizing index self with
  | zero => rwa [← Except.ok.inj success]
  | succ count ih =>
    rw [Hash.rehash] at success
    split at success
    · next held =>
      obtain ⟨slot, -, success⟩ := bind_eq_ok.mp success
      exact ih (index + 1) (by omega) _
        (absent.store ⟨.allocated, _, _⟩ slot _ _ fun _ => absentOld index (by omega) held) success
    · exact ih (index + 1) (by omega) self absent success

theorem resize_noKey {capacity : Nat} (absent : NoKey table key)
    (success : Hash.resize table capacity = .ok table') : NoKey table' key := by
  rw [Hash.resize] at success
  obtain ⟨entries, zeroed, success⟩ := bind_eq_ok.mp success
  rw [calloc_zero zeroed] at success
  refine rehash_noKey absent _ 0 (by omega) _ ?_ success
  intro slot _ held
  cases held

theorem clearTombstones_noKey (absent : NoKey table key)
    (success : Hash.clearTombstones table = .ok table') : NoKey table' key := by
  rw [Hash.clearTombstones] at success
  split at success
  · exact resize_noKey absent success
  · rwa [← Except.ok.inj success]

theorem insert_noKey (absent : NoKey table key) (different : other ≠ key)
    (success : Hash.insert table other value = .ok table') : NoKey table' key := by
  rw [Hash.insert] at success
  obtain ⟨slot, found, rest⟩ := bind_eq_ok.mp success
  clear success
  split at rest
  · next held =>
    rw [← Except.ok.inj rest]
    obtain ⟨bound, -⟩ := probe_ok _ _ _ found
    exact absent.store _ slot _ _ fun _ => absent slot bound held
  · split at rest
    · obtain ⟨grown, resized, last⟩ := bind_eq_ok.mp rest
      obtain ⟨slot', -, last⟩ := bind_eq_ok.mp last
      rw [← Except.ok.inj last]
      exact (resize_noKey absent resized).store _ slot' _ _ fun _ => different
    · rw [← Except.ok.inj rest]
      exact absent.store _ slot _ _ fun _ => different
  · rw [← Except.ok.inj rest]
    exact absent.store _ slot _ _ fun _ => different

/-- Of a key held in one slot at most, a second deletion finds nothing. -/
theorem delete_cases (once : RegisteredOnce table key)
    (success : Hash.delete table key = .ok (value, table')) :
    NoKey table' key ∨ value = null ∧ table' = table := by
  rw [Hash.delete] at success
  obtain ⟨slot, found, rest⟩ := bind_eq_ok.mp success
  obtain ⟨bound, stops⟩ := probe_ok _ _ _ found
  clear success
  split at rest
  · next held =>
    obtain ⟨cleared, clear, last⟩ := bind_eq_ok.mp rest
    simp only [Except.ok.injEq, Prod.mk.injEq] at last
    obtain ⟨-, rfl⟩ := last
    have own : (table.entries slot).key = key := by simpa [held] using stops
    refine Or.inl (clearTombstones_noKey ?_ clear)
    intro s hs here
    simp only [store_apply] at here ⊢
    split at here <;> rename_i position
    · cases here
    · rw [if_neg position]
      exact fun same => position (once s hs slot bound here same held own)
  · simp only [Except.ok.injEq, Prod.mk.injEq] at rest
    exact Or.inr ⟨rest.1.symm, rest.2.symm⟩

theorem delete_of_noKey (absent : NoKey table key)
    (success : Hash.delete table key = .ok (value, table')) : value = null := by
  rw [Hash.delete] at success
  obtain ⟨slot, found, rest⟩ := bind_eq_ok.mp success
  obtain ⟨bound, stops⟩ := probe_ok _ _ _ found
  clear success
  split at rest
  · next held =>
    exact absurd (by simpa [held] using stops) (absent slot bound held)
  · simp only [Except.ok.injEq, Prod.mk.injEq] at rest
    exact rest.1.symm

/-- The finalizer of a moved object is not found again when its old memory is freed. -/
theorem delete_twice {first second : Nat} {removed moved final : Hash}
    (once : RegisteredOnce table key) (deleted : Hash.delete table key = .ok (first, removed))
    (registered : first = null ∧ moved = removed ∨
      first ≠ null ∧ other ≠ key ∧ Hash.insert removed other first = .ok moved)
    (again : Hash.delete moved key = .ok (second, final)) : second = null := by
  rcases delete_cases once deleted with absent | ⟨rfl, rfl⟩
  · rcases registered with ⟨-, rfl⟩ | ⟨-, different, inserted⟩
    · exact delete_of_noKey absent again
    · exact delete_of_noKey (insert_noKey absent different inserted) again
  · obtain ⟨-, rfl⟩ := registered.resolve_right fun moved => moved.1 rfl
    rw [deleted] at again
    simp only [Except.ok.injEq, Prod.mk.injEq] at again
    exact again.1.symm

end Keys

/-! ## The new object's flag -/

/-- `Object_allocate` writes the flag of a small object. -/
theorem allocate_atomic (memory : Memory) (object size atomic : Nat) :
    Object.atomic (Object.allocate memory object size atomic) object = atomic % 256 := by
  simp only [Object.atomic, Object.allocate, Memory.store, store_same]
  omega

theorem allocateSmallLoop_flag {collect : Gc → Result Gc} {self size rsize atomic pointer : Nat}
    {g g' : Gc} (fuel : Nat)
    (success : LocalAllocator.allocateSmallLoop collect self size rsize atomic fuel g =
      .ok (pointer, g')) :
    Object.atomic g'.memory (pointer - sizeofObject) = atomic % 256 := by
  induction fuel generalizing g with
  | zero => cases success
  | succ fuel ih =>
    rw [LocalAllocator.allocateSmallLoop] at success
    obtain ⟨⟨object, tried⟩, -, rest⟩ := bind_eq_ok.mp success
    clear success
    dsimp only at rest
    split at rest
    · simp only [Except.ok.injEq, Prod.mk.injEq] at rest
      obtain ⟨rfl, rfl⟩ := rest
      rw [Object.mutatorAddress, Nat.add_sub_cancel]
      exact allocate_atomic _ _ _ _
    · obtain ⟨moved, -, last⟩ := bind_eq_ok.mp rest
      exact ih last

theorem tryAllocateLargeFrom_flag {size atomic pointer : Nat} {g g' : Gc} (fuel chunk : Nat)
    (success : GlobalAllocator.tryAllocateLargeFrom size atomic fuel chunk g = .ok (pointer, g')) :
    pointer = null ∨
      (g'.global.largeChunkList.chunk (pointer - sizeofChunk)).object.atomic = atomic % 256 := by
  induction fuel generalizing chunk with
  | zero => cases success
  | succ fuel ih =>
    rw [GlobalAllocator.tryAllocateLargeFrom] at success
    split at success
    · simp only [Except.ok.injEq, Prod.mk.injEq] at success
      exact Or.inl success.1.symm
    · obtain ⟨_, -, success₁⟩ := bind_eq_ok.mp success
      obtain ⟨_, -, success₂⟩ := bind_eq_ok.mp success₁
      dsimp only at success₂
      split at success₂
      · obtain ⟨list, -, last⟩ := bind_eq_ok.mp success₂
        simp only [Except.ok.injEq, Prod.mk.injEq] at last
        obtain ⟨rfl, rfl⟩ := last
        refine Or.inr ?_
        rw [Chunk.mutatorAddress, Nat.add_sub_cancel]
        exact congrArg (fun c : Chunk => c.object.atomic) (store_same list.chunk chunk _)
      · exact ih _ success₂

/-- Either allocator stores the flag it is given, as one byte. -/
theorem Fresh.flag {env : Env} {retained : List Nat} {size atomic pointer : Nat} {g g' : Gc}
    (fresh : Fresh retained size g pointer g')
    (success : malloc env size atomic g = .ok (pointer, g')) :
    g'.objectAtomic (pointer - sizeofObject) = atomic % 256 := by
  rw [malloc, mallocWithAtomic] at success
  rw [Gc.objectAtomic, fresh.space]
  split at success
  · next small =>
    rw [decide_eq_false (by omega), if_neg (by decide)]
    rw [LocalAllocator.allocateSmall] at success
    obtain ⟨_, -, rest⟩ := bind_eq_ok.mp success
    exact allocateSmallLoop_flag _ rest
  · next large =>
    rw [decide_eq_true (by omega), if_pos rfl]
    obtain ⟨before, -, some, tried⟩ := allocateLarge_last (fun _ => True) trivial
      (fun _ _ _ _ => trivial) (fun _ _ _ _ => trivial) (fun _ _ _ _ _ => trivial) success
    rw [show pointer - sizeofObject - chunkHeaderSize = pointer - sizeofChunk from by
      simp only [sizeofObject, chunkHeaderSize, sizeofChunk]; omega]
    exact (tryAllocateLargeFrom_flag _ _ tried).resolve_left some

/-! ## The steps after the allocation -/

section Steps
variable {env : Env} {touched : Nat → Prop} {g g' : Gc}

theorem runAction_keeps {address value : Nat} (outside : touched address)
    (success : Collector.runAction env g (.store address value) = .ok g') :
    KeepsData touched g g' := by
  simp only [Collector.runAction, Gc.clientStore] at success
  split at success
  · rw [← Except.ok.inj success]
    refine ⟨fun a apart => ?_, rfl, rfl, fun _ => rfl⟩
    exact store_other _ _ _ _ fun same => apart (same ▸ outside)
  · cases success

theorem runActions_keeps (actions : List Action)
    (stores : ∀ action ∈ actions, ∃ address value, action = .store address value ∧ touched address)
    (success : actions.foldlM (Collector.runAction env) g = .ok g') : KeepsData touched g g' := by
  induction actions generalizing g with
  | nil =>
    rw [← Except.ok.inj success]
    exact KeepsData.refl _ _
  | cons action rest ih =>
    rw [List.foldlM_cons] at success
    obtain ⟨next, ran, others⟩ := bind_eq_ok.mp success
    obtain ⟨address, value, rfl, outside⟩ := stores action List.mem_cons_self
    exact (runAction_keeps outside ran).trans
      (ih (fun a h => stores a (List.mem_cons_of_mem _ h)) others)

theorem callIfSet_keeps {finalizer object : Nat}
    (harmless : finalizer = null ∨ ∀ action ∈ env.finalizer finalizer (Object.mutatorAddress object),
      ∃ address value, action = .store address value ∧ touched address)
    (success : GlobalAllocator.callIfSet (Collector.callFinalizer env) finalizer object g = .ok g') :
    KeepsData touched g g' := by
  rw [GlobalAllocator.callIfSet] at success
  split at success
  · next some =>
    have called := runActions_keeps _ (harmless.resolve_left some) success
    exact ⟨called.memory, called.start, called.stop, called.chunks⟩
  · rw [← Except.ok.inj success]
    exact KeepsData.refl _ _

theorem freeLarge_keeps (chunk : Nat) (g : Gc) :
    KeepsData touched g (GlobalAllocator.freeLarge chunk g) := by
  refine ⟨fun _ _ => rfl, rfl, rfl, fun c => ?_⟩
  simp only [GlobalAllocator.freeLarge, store_apply]
  split
  · next same => rw [same]
  · rfl

theorem deleteFinalizer_ok {object finalizer : Nat}
    (success : GlobalAllocator.deleteFinalizer object g = .ok (finalizer, g')) :
    ∃ table, Hash.delete g.global.finalizers object = .ok (finalizer, table) ∧
      g' = { g with global := { g.global with finalizers := table } } := by
  rw [GlobalAllocator.deleteFinalizer] at success
  obtain ⟨⟨removed, table⟩, deleted, rest⟩ := bind_eq_ok.mp success
  simp only [Except.ok.injEq, Prod.mk.injEq] at rest
  obtain ⟨rfl, rfl⟩ := rest
  exact ⟨table, deleted, rfl⟩

theorem moveFinalizer_ok {object newObject finalizer : Nat}
    (success : moveFinalizer finalizer object newObject g = .ok g') :
    ∃ table history, g' = { g with
        global := { g.global with finalizers := table }
        history := history } ∧
      (finalizer = null ∧ table = g.global.finalizers ∨
        finalizer ≠ null ∧ Hash.insert g.global.finalizers newObject finalizer = .ok table) := by
  rw [moveFinalizer] at success
  split at success
  · next some =>
    obtain ⟨registered, inserting, rest⟩ := bind_eq_ok.mp success
    rw [GlobalAllocator.registerFinalizer] at inserting
    obtain ⟨table, inserted, last⟩ := bind_eq_ok.mp inserting
    rw [← Except.ok.inj rest, ← Except.ok.inj last]
    exact ⟨table, _, rfl, Or.inr ⟨some, inserted⟩⟩
  · next none =>
    rw [← Except.ok.inj success]
    exact ⟨g.global.finalizers, g.history, rfl, Or.inl ⟨Classical.not_not.mp none, rfl⟩⟩

/-- What follows the copy touches no object, and frees the chunk of a large one. -/
theorem finish_keeps {object newObject finalizer : Nat} {deleted moved : Gc}
    (delete : GlobalAllocator.deleteFinalizer object g = .ok (finalizer, deleted))
    (move : moveFinalizer finalizer object newObject deleted = .ok moved)
    (release : free env (Object.mutatorAddress object) moved = .ok g')
    (address : chunkHeaderSize ≤ object) (different : newObject ≠ object)
    (harmless : RegisteredOnce g.global.finalizers object ∨
      ∀ callback pointer, ∀ action ∈ env.finalizer callback pointer,
        ∃ address value, action = .store address value ∧ touched address) :
    KeepsData touched g g' ∧
      (g.global.inLargeHeap (Object.mutatorAddress object) = true →
        (g'.global.largeChunkList.chunk (object - chunkHeaderSize)).isAllocated = false) := by
  obtain ⟨table, removed, rfl⟩ := deleteFinalizer_ok delete
  obtain ⟨table', history, rfl, registered⟩ := moveFinalizer_ok move
  dsimp only at registered
  have chunk : Object.mutatorAddress object - sizeofChunk = object - chunkHeaderSize := by
    simp only [Object.mutatorAddress, sizeofObject, sizeofChunk, chunkHeaderSize]
    omega
  have header : object - chunkHeaderSize + chunkHeaderSize = object := by
    simp only [chunkHeaderSize] at *
    omega
  rw [free] at release
  split at release
  · rw [GlobalAllocator.deallocateLarge, chunk, header] at release
    obtain ⟨⟨second, again⟩, deleteAgain, rest⟩ := bind_eq_ok.mp release
    obtain ⟨called, call, last⟩ := bind_eq_ok.mp rest
    obtain ⟨table'', removedAgain, rfl⟩ := deleteFinalizer_ok deleteAgain
    dsimp only at removedAgain call
    have quiet : KeepsData touched _ called := callIfSet_keeps (harmless.imp
      (fun once => delete_twice once removed
        (registered.imp_right fun moved => ⟨moved.1, different, moved.2⟩) removedAgain)
      fun quiet => quiet second (Object.mutatorAddress object)) call
    have through : KeepsData touched g called :=
      ⟨quiet.memory, quiet.start, quiet.stop, quiet.chunks⟩
    rw [← Except.ok.inj last]
    refine ⟨through.trans (freeLarge_keeps _ _), fun _ => ?_⟩
    simp only [GlobalAllocator.freeLarge, store_same, Chunk.isAllocated, bne_self_eq_false]
  · next small =>
    rw [← Except.ok.inj release]
    exact ⟨⟨fun _ _ => rfl, rfl, rfl, fun _ => rfl⟩, fun large => absurd large small⟩

end Steps

/-! ## The whole call -/

section Call
variable {env : Env} {retained : List Nat} {object size : Nat} {g : Gc}

/-- The copy writes the payload of the new object only. -/
theorem copy_keeps (g : Gc) (target source count : Nat) :
    KeepsData (fun a => target ≤ a ∧ a < target + wordSize * count) g
      { g with memory := copyWords g.memory target source count } :=
  ⟨fun a outside => copyWords_outside _ _ _ _ (by omega), rfl, rfl,
    fun _ => rfl⟩

/-- An object that moved: the copy and the steps after it. -/
theorem moved_reallocated {pointer finalizer : Nat} {after deleted moved final : Gc}
    (member : object ∈ retained) (ok : ∀ o ∈ retained, ObjectOk g o)
    (grows : g.objectSize object - sizeofObject < size)
    (fresh : Fresh retained size g pointer after)
    (flag : after.objectAtomic (pointer - sizeofObject) = g.objectAtomic object)
    (harmless : RegisteredOnce after.global.finalizers object ∨
      WritesOutside env after ((pointer - sizeofObject) :: retained))
    (delete : GlobalAllocator.deleteFinalizer object
      { after with
        memory := copyWords after.memory pointer (Object.mutatorAddress object)
          ((g.objectSize object - sizeofObject) / wordSize) } = .ok (finalizer, deleted))
    (move : moveFinalizer finalizer object (pointer - sizeofObject) deleted = .ok moved)
    (release : free env (Object.mutatorAddress object) moved = .ok final) :
    Reallocated retained object size g pointer final := by
  obtain ⟨address, enough, words, -, -, space⟩ := ok object member
  obtain ⟨kept, above, room, apart, -⟩ := fresh
  have count : wordSize * ((g.objectSize object - sizeofObject) / wordSize) =
      g.objectSize object - sizeofObject := by
    simp only [sizeofObject, wordSize] at *
    omega
  have copies := copy_keeps after pointer (Object.mutatorAddress object)
    ((g.objectSize object - sizeofObject) / wordSize)
  have copied : ∀ i < (g.objectSize object - sizeofObject) / wordSize,
      (copyWords after.memory pointer (Object.mutatorAddress object)
        ((g.objectSize object - sizeofObject) / wordSize)).load (pointer + wordSize * i) =
      after.memory.load (Object.mutatorAddress object + wordSize * i) := fun i inside =>
    copyWords_inside _ _ _ _ inside (by
      have := apart object member
      rw [count]
      simp only [Object.mutatorAddress, sizeofObject] at *
      omega)
  generalize copyWords after.memory pointer (Object.mutatorAddress object)
    ((g.objectSize object - sizeofObject) / wordSize) = memory at *
  have different : pointer - sizeofObject ≠ object := fun same => by
    have := apart object member
    simp only [sizeofObject] at *
    omega
  obtain ⟨finishes, freed⟩ := finish_keeps delete move release address different harmless
  have both : KeepsData (fun a => (pointer ≤ a ∧ a < pointer + (g.objectSize object - sizeofObject)) ∨
      Outside after ((pointer - sizeofObject) :: retained) a) after final :=
    (copies.mono fun a h => Or.inl (by rwa [count] at h)).trans
      (finishes.mono fun a h => Or.inr h)
  have new : ∀ a, pointer - sizeofObject ≤ a →
      a < pointer - sizeofObject + after.objectSize (pointer - sizeofObject) →
      ¬ Outside after ((pointer - sizeofObject) :: retained) a := fun a low high outside => by
    have := outside _ List.mem_cons_self
    omega
  have header : ∀ a, pointer - sizeofObject ≤ a → a < pointer →
      ¬ ((pointer ≤ a ∧ a < pointer + (g.objectSize object - sizeofObject)) ∨
        Outside after ((pointer - sizeofObject) :: retained) a) := by
    rintro a low high (inside | outside)
    · omega
    · exact new a low (by simp only [sizeofObject] at *; omega) outside
  obtain ⟨newSize, newFlag⟩ := both.header
    (header (pointer - sizeofObject) (Nat.le_refl _) (by simp only [sizeofObject] at *; omega))
    (header (pointer - sizeofObject + 8) (by omega) (by simp only [sizeofObject] at *; omega))
  refine ⟨by rw [newSize]; exact room, fun i inside => ?_, newFlag.trans flag, ?_,
    fun _ large => freed ?_, fun o ho => (kept o ho).1.trans (both.sameObject ?_ ?_)⟩
  · have index : i < (g.objectSize object - sizeofObject) / wordSize := by
      simp only [wordSize] at *
      omega
    rw [finishes.memory _ (new _ (by omega) (by simp only [sizeofObject, wordSize] at *; omega))]
    dsimp only
    rw [copied i index]
    exact (kept object member).1.payload _ (by simp only [Object.mutatorAddress]; omega)
      (by simp only [Object.mutatorAddress, sizeofObject, wordSize] at *; omega)
  · refine iff_of_false (fun same => different ?_) (by omega)
    rw [same, Object.mutatorAddress, Nat.add_sub_cancel]
  · rw [← space, ← (kept object member).2.2] at large
    exact large
  · rw [(kept o ho).1.size]
    exact (ok o ho).header
  · rw [(kept o ho).1.size]
    rintro a low high (inside | outside)
    · have := apart o ho
      simp only [sizeofObject] at *
      omega
    · have := outside o (List.mem_cons_of_mem _ ho)
      rw [(kept o ho).1.size] at this
      omega

/-- `GC_realloc` keeps the data of every retained object, wherever the allocator puts the new
one. -/
theorem realloc_preserves_data {newPointer : Nat} {g' : Gc} (member : object ∈ retained)
    (ok : ∀ o ∈ retained, ObjectOk g o) (positive : 0 < size)
    (allocators : ∀ pointer after, malloc env size (g.objectAtomic object) g = .ok (pointer, after) →
      Fresh retained size g pointer after ∧
      (RegisteredOnce after.global.finalizers object ∨
        WritesOutside env after ((pointer - sizeofObject) :: retained)))
    (success : realloc env (Object.mutatorAddress object) size g = .ok (newPointer, g')) :
    Reallocated retained object size g newPointer g' := by
  obtain ⟨address, enough, -, fits, byte, -⟩ := ok object member
  have own : Object.mutatorAddress object - sizeofObject = object := Nat.add_sub_cancel _ _
  rw [realloc, if_neg (by simp only [Object.mutatorAddress, sizeofObject, null]; omega),
    if_neg (by omega)] at success
  dsimp only at success
  rw [own, sizeSub_eq enough fits] at success
  split at success
  · next inPlace =>
    simp only [Except.ok.injEq, Prod.mk.injEq] at success
    obtain ⟨rfl, rfl⟩ := success
    refine ⟨?_, fun _ _ => rfl, by rw [own], by simp [inPlace], fun h => absurd rfl h,
      fun _ _ => ⟨rfl, rfl, fun _ _ _ => rfl⟩⟩
    rw [own]
    omega
  · next grows =>
    obtain ⟨⟨pointer, after⟩, allocated, copied⟩ := bind_eq_ok.mp success
    obtain ⟨⟨finalizer, deleted⟩, delete, rest⟩ := bind_eq_ok.mp copied
    obtain ⟨moved, move, rest'⟩ := bind_eq_ok.mp rest
    obtain ⟨final, release, last⟩ := bind_eq_ok.mp rest'
    simp only [Except.ok.injEq, Prod.mk.injEq] at last
    obtain ⟨rfl, rfl⟩ := last
    dsimp only at delete move release
    obtain ⟨fresh, harmless⟩ := allocators _ _ allocated
    have flag := fresh.flag allocated
    rw [Nat.mod_eq_of_lt byte] at flag
    exact moved_reallocated member ok (by omega) fresh flag harmless delete move release

end Call

/-- A heap with an atomic object of two payload words at the start of its first block. -/
def oneObjectHeap : Gc :=
  { plainHeap 65536 (2 ^ 40) with
    memory := ⟨fun a => if a = 0x100100 then 32 else if a = 0x100108 then 256 else a⟩ }

/-- What `Fresh` asks of an allocation of 10000 bytes here. -/
def freshCheck (pointer : Nat) (after : Gc) : Bool :=
  decide (pointer = 2 ^ 60 + 32) && decide (after.objectSize (2 ^ 60 + 16) = 10016) &&
  decide (after.objectSize 0x100100 = 32) && decide (after.objectAtomic 0x100100 = 1) &&
  !after.global.inLargeHeap 0x100100 && !after.global.inLargeHeap 0x100110 &&
  after.global.inLargeHeap (2 ^ 60 + 16) &&
  (List.range 16).all fun i => decide (after.memory.load (0x100110 + i) = 0x100110 + i)

/-- A small object is moved to the large heap. -/
theorem smallObject_becomes_large : ∃ newPointer g',
    realloc sampleEnv 0x100110 10000 oneObjectHeap = .ok (newPointer, g') ∧
    Reallocated [0x100100] 0x100100 10000 oneObjectHeap newPointer g' := by
  have returns : (realloc sampleEnv 0x100110 10000 oneObjectHeap).toBool = true := by
    decide +kernel
  obtain ⟨⟨newPointer, g'⟩, success⟩ := ok_of_toBool returns
  refine ⟨newPointer, g', success, realloc_preserves_data List.mem_cons_self ?_ (by decide) ?_ success⟩
  · intro o member
    rw [List.mem_singleton.mp member]
    exact ⟨by decide, by decide, by decide, by decide, by decide, by decide⟩
  · intro pointer after allocated
    have checked : (malloc sampleEnv 10000 (oneObjectHeap.objectAtomic 0x100100) oneObjectHeap).map
        (fun r => freshCheck r.1 r.2) = .ok true := by decide +kernel
    rw [allocated] at checked
    have facts : freshCheck pointer after = true := Except.ok.inj checked
    simp only [freshCheck, Bool.and_eq_true, decide_eq_true_eq, Bool.not_eq_true',
      List.all_eq_true, List.mem_range] at facts
    obtain ⟨⟨⟨⟨⟨⟨⟨rfl, newSize⟩, oldSize⟩, flag⟩, outside⟩, outside'⟩, inside⟩, payload⟩ := facts
    refine ⟨⟨fun o member => ?_, by decide, ?_, fun o member => ?_, ?_⟩,
      Or.inr fun _ _ _ none => absurd none List.not_mem_nil⟩
    · rw [List.mem_singleton.mp member]
      refine ⟨⟨oldSize, flag, fun a low high => ?_⟩, outside, outside'⟩
      have kept := payload (a - 0x100110) (by
        have : oneObjectHeap.objectSize 0x100100 = 32 := by decide
        simp only [sizeofObject] at *
        omega)
      simp only [sizeofObject] at low
      rw [show 0x100110 + (a - 0x100110) = a by omega] at kept
      rw [kept]
      simp only [oneObjectHeap]
      rw [if_neg (by omega), if_neg (by omega)]
    · exact Nat.le_of_eq newSize.symm
    · rw [List.mem_singleton.mp member]
      exact Or.inl (by decide)
    · exact inside.trans (by decide)

end ImmixGc.Guarantees
