import ImmixGc.Guarantees.LargeObjects
import ImmixGc.Guarantees.Reallocation
import ImmixGc.Guarantees.SmallSafety

/-!
# Runs of the whole collector

Any number of threads allocate small and large objects, move and free them, register
finalizers that only write, and collect. Both heaps keep their invariants, as long as no
`initCursor` takes a free block while `next` is set and no sweep measures a long last chunk.
-/
namespace ImmixGc.Guarantees
open Source Foundation

/-- Both heaps of a reachable state. -/
structure HeapOk (setup : Setup) (g : Gc) : Prop where
  small : Stock setup (fun x => x.owner ∈ setup.registered) g
  large : ∃ chunks, LargeLive setup.env chunks g

/-- The heaps are as they should be, unless one of the two flags is set. -/
def Whole (setup : Setup) (g : Gc) : Prop :=
  (g.history.staleNext = true ∨ g.history.shortLimit = true) ∨ HeapOk setup g

/-- The newest object was handed out as `pointer`, with room for `size` bytes. -/
def HandedOut (size pointer : Nat) (g : Gc) : Prop :=
  ∃ new older, g.history.live = new :: older ∧ pointer = Object.mutatorAddress new.object ∧
    size + sizeofObject ≤ new.size

section Steps
variable {setup setup' : Setup} {g g' : Gc}

/-! ## Steps that take no block -/

/-- `GC_free` of a large object: `deleted` is the state without the finalizer, `called` that
after its call. -/
structure Released (env : Env) (chunk finalizer : Nat) (g deleted called g' : Gc) : Prop where
  deleting : GlobalAllocator.deleteFinalizer (chunk + chunkHeaderSize) g = .ok (finalizer, deleted)
  calling : (finalizer = null ∧ called = deleted) ∨ (finalizer ≠ null ∧
    Collector.callFinalizer env finalizer (chunk + chunkHeaderSize) deleted = .ok called)
  freed : g' = GlobalAllocator.freeLarge chunk called

/-- What `GC_free` does. -/
theorem free_cases {env : Env} {pointer : Nat} (success : Source.free env pointer g = .ok g') :
    g' = g ∨ ∃ finalizer deleted called,
      Released env (pointer - sizeofChunk) finalizer g deleted called g' := by
  rw [Source.free] at success
  split at success
  · rw [GlobalAllocator.deallocateLarge] at success
    obtain ⟨⟨finalizer, deleted⟩, deleting, rest⟩ := bind_eq_ok.mp success
    obtain ⟨called, calling, done⟩ := bind_eq_ok.mp rest
    refine Or.inr ⟨finalizer, deleted, called, deleting, ?_, (Except.ok.inj done).symm⟩
    rw [GlobalAllocator.callIfSet] at calling
    split at calling
    · next some => exact Or.inr ⟨some, calling⟩
    · next none => exact Or.inl ⟨Classical.not_not.mp none, (Except.ok.inj calling).symm⟩
  · exact Or.inl (Except.ok.inj success).symm

namespace HeapOk

theorem running (ok : HeapOk setup g) : Running setup g := Or.inr ok.small

theorem largePart (ok : HeapOk setup g) : Large setup.env g := Or.inr ok.large

theorem clientStore (ok : HeapOk setup g) {address value : Nat}
    (success : g.clientStore address value = .ok g') : HeapOk setup g' := by
  obtain ⟨chunks, large⟩ := ok.large
  exact ⟨ok.small.clientStore success, chunks, large.clientStore success⟩

/-- What only the client's data, the mark stack or the thread changes. -/
theorem congr (ok : HeapOk setup g) (global : g'.global = g.global)
    (allocators : g'.localAllocators = g.localAllocators) (memory : g'.memory = g.memory)
    (headers : g'.block = g.block) (locals : g'.localAllocator = g.localAllocator)
    (history : NoNew g.history g'.history) : HeapOk setup g' := by
  refine ⟨?_, ?_⟩
  · exact ok.small.congr (by rw [global]) allocators memory headers history
      (by rw [global]) ⟨by rw [global], by rw [global]⟩ fun x hx => ⟨hx, .of_local (by rw [locals])⟩
  · obtain ⟨chunks, large⟩ := ok.large
    refine ⟨chunks, large.congr ?_ (by rw [global]; exact .refl _) history.live
      (Or.inr (by rw [global]))⟩
    exact ⟨by rw [global], by rw [global], by rw [global], by rw [global], by rw [global]⟩

/-- The table of finalizers that only write does not matter. -/
theorem table (ok : HeapOk setup g) (stores : StoresOnly setup.env) (finalizers : Hash) :
    HeapOk setup { g with global := { g.global with finalizers := finalizers } } := by
  refine ⟨?_, ?_⟩
  · obtain ⟨bounds, allocators, beyond, homes, apart, -⟩ := ok.small.shape
    exact ok.small.reshape ⟨bounds.congr rfl, allocators, beyond, homes, apart, Or.inl stores⟩
      ⟨rfl, rfl⟩ rfl rfl (fun _ member _ => member) id ⟨rfl, rfl⟩ fun x hx => ⟨hx, .of_local rfl⟩
  · obtain ⟨chunks, large⟩ := ok.large
    exact ⟨chunks, large.congr ⟨rfl, rfl, rfl, rfl, rfl⟩ (.refl _) (List.Sublist.refl _)
      (Or.inl stores)⟩

theorem callFinalizer (ok : HeapOk setup g) (stores : StoresOnly setup.env) {callback object : Nat}
    (success : Collector.callFinalizer setup.env callback object g = .ok g') : HeapOk setup g' :=
  callFinalizer_keeps (fun _ ok => ok.congr rfl rfl rfl rfl rfl ⟨List.Sublist.refl _, id⟩)
    (fun _ _ _ _ ok stored => ok.clientStore stored) (Or.inl stores) ok success

/-- Deleting from the empty table finds nothing. -/
theorem deleteFinalizer (ok : HeapOk setup g) {object finalizer : Nat}
    (success : GlobalAllocator.deleteFinalizer object g = .ok (finalizer, g')) :
    HeapOk setup g' ∧ (finalizer = null ∨ StoresOnly setup.env) := by
  obtain ⟨table, deleted, rfl⟩ := deleteFinalizer_ok success
  rcases ok.small.shape.finalizers with stores | empty
  · exact ⟨ok.table stores table, Or.inr stores⟩
  · have created : Hash.create 8 = .ok ⟨fun _ => Entry.zero, 7, 0, 0⟩ := rfl
    have fresh := Except.ok.inj (empty.symm.trans created)
    rw [fresh, Hash.delete] at deleted
    obtain ⟨slot, -, rest⟩ := bind_eq_ok.mp deleted
    rw [if_neg (fun wrong => by cases wrong)] at rest
    simp only [Except.ok.injEq, Prod.mk.injEq] at rest
    obtain ⟨rfl, rfl⟩ := rest
    rw [← fresh]
    exact ⟨ok, Or.inl rfl⟩

theorem freeLarge (ok : HeapOk setup g) (chunk : Nat) :
    HeapOk setup (GlobalAllocator.freeLarge chunk g) := by
  obtain ⟨chunks, large⟩ := ok.large
  refine ⟨?_, chunks, large.freeLarge chunk⟩
  exact ok.small.congr rfl rfl rfl rfl ⟨List.filter_sublist, id⟩ rfl ⟨rfl, rfl⟩
    fun x hx => ⟨hx, .of_local rfl⟩

theorem free (ok : HeapOk setup g) {pointer : Nat}
    (success : Source.free setup.env pointer g = .ok g') : HeapOk setup g' := by
  obtain rfl | ⟨finalizer, deleted, called, release⟩ := free_cases success
  · exact ok
  obtain ⟨kept, quiet⟩ := ok.deleteFinalizer release.deleting
  rw [release.freed]
  refine freeLarge ?_ _
  obtain ⟨-, rfl⟩ | ⟨some, calling⟩ := release.calling
  · exact kept
  · exact kept.callFinalizer (quiet.resolve_left some) calling

end HeapOk

/-! ## Steps that take blocks -/

section Flags
variable {h : History} {env : Env}

theorem FlagsUp.free (up : FlagsUp h g.history) {pointer : Nat}
    (success : Source.free env pointer g = .ok g') : FlagsUp h g'.history := by
  obtain rfl | ⟨finalizer, deleted, called, release⟩ := free_cases success
  · exact up
  obtain ⟨table, -, rfl⟩ := deleteFinalizer_ok release.deleting
  have kept : FlagsUp h called.history := by
    obtain ⟨-, rfl⟩ | ⟨-, calling⟩ := release.calling
    · exact up
    · exact FlagsUp.callFinalizer (g := { g with global := { g.global with finalizers := table } })
        up calling
  rw [release.freed]
  exact ⟨kept.staleNext, kept.shortLimit, kept.holeInObject, kept.serials, kept.calls⟩

end Flags

namespace Whole

theorem intro (small : Running setup g) (large : Large setup.env g) : Whole setup g := by
  rcases small with stale | small
  · exact Or.inl (Or.inl stale)
  rcases large with short | large
  · exact Or.inl (Or.inr short)
  · exact Or.inr ⟨small, large⟩

/-- A flag stays set; without one, both parts are known. -/
theorem step (whole : Whole setup g) (flags : FlagsUp g.history g'.history)
    (next : HeapOk setup g → Whole setup' g') : Whole setup' g' :=
  whole.elim (fun set => Or.inl (set.imp flags.staleNext flags.shortLimit)) next

theorem collectOnce (whole : Whole setup g) (success : Source.collectOnce setup.env g = .ok g') :
    Whole setup g' :=
  whole.step ((FlagsUp.refl _).collectOnce success) fun ok =>
    .intro (Kept.collectOnce ok.running success) (ok.largePart.collectOnce success)

theorem growSmall (whole : Whole setup g) (success : GlobalAllocator.growSmall g = .ok g') :
    Whole setup g' :=
  whole.step ((FlagsUp.refl _).growSmall success) fun ok =>
    .intro (Kept.growSmall ok.running success) (ok.largePart.growSmall success)

section Cursors
variable {self : Nat}

theorem initCursor (whole : Whole setup g)
    (success : LocalAllocator.initCursor (Source.collectOnce setup.env) self g = .ok g') :
    Whole setup g' :=
  whole.step ((FlagsUp.refl _).initCursor FlagsUp.feeds success) fun ok =>
    .intro ((Kept.initCursor (Running.feeds setup) ok.running success).subset fun _ hx => Or.inl hx)
      (ok.largePart.initCursor (Large.feeds setup.env) success)

theorem initOverflowCursor (whole : Whole setup g)
    (success : LocalAllocator.initOverflowCursor (Source.collectOnce setup.env) self g = .ok g') :
    Whole setup g' :=
  whole.step ((FlagsUp.refl _).initOverflowCursor FlagsUp.feeds success) fun ok =>
    .intro ((Kept.initOverflowCursor (Running.feeds setup) ok.running success).subset
      fun _ hx => Or.inl hx) (ok.largePart.initOverflowCursor (Large.feeds setup.env) success)

theorem reset (whole : Whole setup g)
    (success : LocalAllocator.reset (Source.collectOnce setup.env) self g = .ok g') :
    Whole setup g' := by
  rw [LocalAllocator.reset] at success
  obtain ⟨middle, first, second⟩ := bind_eq_ok.mp success
  exact (whole.initCursor first).initOverflowCursor second

theorem nextHole (whole : Whole setup g) (registered : self ∈ setup.registered)
    (some : (g.localAllocator self).next ≠ null) :
    Whole setup (LocalAllocator.findNextHole self g).2 := by
  have found : (LocalAllocator.findNextHole self g).2.history = g.history := by
    rw [LocalAllocator.findNextHole, if_pos some]
    rfl
  refine whole.step (found ▸ .refl _) fun ok => Or.inr ⟨ok.small.nextHole registered some, ?_⟩
  obtain ⟨chunks, large⟩ := ok.large
  rw [LocalAllocator.findNextHole, if_pos some]
  exact ⟨chunks, large.congr ⟨rfl, rfl, rfl, rfl, rfl⟩ (.refl _) (List.Sublist.refl _) (Or.inr rfl)⟩

end Cursors

/-! ## Small objects -/

section Allocate
variable {self size rsize atomic pointer : Nat}

theorem fill (whole : Whole setup g) {x : Slot} {new : Allocation}
    (registered : x.owner ∈ setup.registered) (filled : FilledSlot x new g g')
    (flags : FlagsUp g.history g'.history) : Whole setup g' := by
  refine whole.step flags fun ok => Or.inr ⟨ok.small.fill registered filled, ?_⟩
  obtain ⟨chunks, large⟩ := ok.large
  refine ⟨chunks, large.fill filled ?_⟩
  obtain ⟨free, recyclable, own, stocked⟩ := ok.small
  refine stocked.shape.bounds.not_inLarge ?_
  rw [filled.home (stocked.held x registered)]
  exact (own.held x registered).1

theorem allocationKeeps (registered : self ∈ setup.registered) (word : rsize % wordSize = 0)
    (least : sizeofObject ≤ rsize) (most : rsize ≤ largeObjectSize) :
    AllocationKeeps (Whole setup) (Source.collectOnce setup.env) self size rsize atomic where
  block _ _ whole success := whole.initCursor success
  overflow _ _ whole success := whole.initOverflowCursor success
  hole _ whole some := whole.nextHole registered some
  object before after object whole bumped _ := by
    obtain ⟨x, owner, -, filled⟩ := bumped.filled word least most size atomic
    exact whole.fill (owner ▸ registered) filled ((FlagsUp.refl _).handOut bumped size atomic)
  nowhere before after whole bumped :=
    whole.step ((FlagsUp.refl _).bumped bumped) fun ok =>
      absurd bumped (ok.small.not_nowhere (fun _ owner => owner ▸ registered) word least most)

theorem allocateSmall (whole : Whole setup g) (registered : self ∈ setup.registered)
    (small : size ≤ largeObjectSize - sizeofObject)
    (success : LocalAllocator.allocateSmall setup.env (Source.collectOnce setup.env) self size atomic
      g = .ok (pointer, g')) :
    Whole setup g' ∧ HandedOut size pointer g' := by
  rw [LocalAllocator.allocateSmall] at success
  obtain ⟨-, -, rest⟩ := bind_eq_ok.mp success
  obtain ⟨word, enough, most⟩ := small_rsize small
  generalize roundToNextMultiple (sizeAdd size sizeofObject) wordSize = rsize at *
  have keeps : AllocationKeeps (Whole setup) (Source.collectOnce setup.env) self size rsize atomic :=
    allocationKeeps registered word (by omega) most
  refine ⟨allocateSmallLoop_keeps keeps _ whole rest, ?_⟩
  obtain ⟨before, object, bumped, -, -, -, rfl, rfl⟩ := allocateSmallLoop_handsOut keeps _ whole rest
  exact ⟨_, _, rfl, rfl, enough⟩

/-! ## Large objects -/

theorem growLarge (whole : Whole setup g) {increment : Nat}
    (success : GlobalAllocator.growLarge setup.env increment g = .ok g') : Whole setup g' := by
  refine whole.step ((FlagsUp.refl _).growLarge success) fun ok => ?_
  obtain ⟨chunks, large⟩ := ok.large
  exact Or.inr ⟨ok.small.growLarge success, _, large.growLarge ok.small.shape success⟩

theorem failed (whole : Whole setup g)
    (success : GlobalAllocator.tryAllocateLarge setup.env size atomic g = .ok (null, g')) :
    Whole setup g' := by
  refine whole.step ((FlagsUp.refl _).tryAllocateLarge success) fun ok => ?_
  obtain ⟨chunks, large⟩ := ok.large
  obtain ⟨-, rfl⟩ := (tryAllocateLarge_ok large.ok success).resolve_right fun found => found.1 rfl
  exact Or.inr ok

theorem allocateLarge (whole : Whole setup g) (bound : size ≤ 2 ^ 64 - 24)
    (success : GlobalAllocator.allocateLarge setup.env (Source.collectOnce setup.env) size atomic g =
      .ok (pointer, g')) :
    (g'.history.staleNext = true ∨ g'.history.shortLimit = true) ∨
      HeapOk setup g' ∧ HandedOut size pointer g' := by
  obtain ⟨before, kept, some, tried⟩ := allocateLarge_last (Whole setup) whole
    (fun _ _ whole ran => whole.collectOnce ran) (fun _ _ whole tried => whole.failed tried)
    (fun _ _ _ whole grown => whole.growLarge grown) success
  have flags := (FlagsUp.refl before.history).tryAllocateLarge tried
  refine kept.imp (Or.imp flags.staleNext flags.shortLimit) fun ok => ?_
  obtain ⟨chunks, large⟩ := ok.large
  obtain ⟨-, chunk, member, list, rfl, allocated⟩ :=
    (tryAllocateLarge_ok large.ok tried).resolve_left fun none => some none.1
  obtain ⟨enough, fits⟩ := roundToNextMultiple_room bound
  obtain ⟨large', inLarge, apart⟩ := large.allocated member (roundToNextMultiple_word size)
    (by rw [fits]; exact Nat.le_add_left _ _) allocated
  refine ⟨⟨ok.small.allocated inLarge apart allocated, large'⟩, AllocatedFrom.newObject before chunk list,
    before.history.live, ?_, ?_, ?_⟩
  · rw [allocated.result]
    rfl
  · simp only [Chunk.mutatorAddress, Object.mutatorAddress, AllocatedFrom.newObject, sizeofChunk,
      chunkHeaderSize, sizeofObject, Nat.add_assoc]
  · obtain ⟨chunks', served⟩ := allocated.served large.ok.heap member
    have room := served.enough
    rw [fits, allocated.result] at room
    dsimp only [GlobalAllocator.incrementCounters] at room
    rw [store_same] at room
    exact (Nat.add_le_add_right enough _).trans room

theorem malloc (whole : Whole setup g) (registered : g.current ∈ setup.registered)
    (bound : size ≤ 2 ^ 64 - 24)
    (success : Source.malloc setup.env size atomic g = .ok (pointer, g')) :
    Whole setup g' ∧ ((g'.history.staleNext = true ∨ g'.history.shortLimit = true) ∨
      HandedOut size pointer g') := by
  rw [Source.malloc, mallocWithAtomic] at success
  split at success
  · next small =>
    obtain ⟨kept, out⟩ := whole.allocateSmall registered small success
    exact ⟨kept, Or.inr out⟩
  · have kept := whole.allocateLarge bound success
    exact ⟨kept.imp_right And.left, kept.imp_right And.right⟩

end Allocate

/-! ## Moving an object -/

end Whole

/-- Live objects are word aligned. -/
theorem HeapOk.word (ok : HeapOk setup g) {a : Allocation} (member : a ∈ g.history.live) :
    a.object % wordSize = 0 := by
  rcases ok.small.shape.homes a member with home | ⟨inside, -⟩
  · obtain ⟨layout, extent, intact⟩ := (ok.small.walkable.full _ home).intact
    obtain ⟨walked, -⟩ := intact.live _ (mem_liveIn.mpr ⟨a, member, rfl, rfl⟩)
    exact (intact.ok.shape a.object walked).1
  · obtain ⟨chunks, large⟩ := ok.large
    obtain ⟨chunk, inList, object, -⟩ := large.live a member inside
    have word := large.ok.words chunk inList
    simp only [wordSize, chunkHeaderSize] at *
    omega

/-- `memcpy` into an object is a sequence of writes that its owner may do. -/
theorem HeapOk.copyWords {a : Allocation} {target source count : Nat}
    (ok : HeapOk setup g) (owned : a ∈ g.history.live)
    (start : target = Object.mutatorAddress a.object)
    (room : sizeofObject + count * wordSize ≤ a.size) :
    HeapOk setup { g with memory := Source.copyWords g.memory target source count } := by
  induction count with
  | zero => exact ok
  | succ count ih =>
    have word := ok.word owned
    rw [Nat.succ_mul] at room
    have copied := ih (by omega)
    rw [Source.copyWords]
    generalize Source.copyWords g.memory target source count = memory at *
    have owns : Gc.clientOwns { g with memory := memory } (target + count * wordSize) = true := by
      rw [Gc.clientOwns, Bool.and_eq_true, Bool.or_eq_true, List.any_eq_true]
      refine ⟨?_, Or.inr ⟨a, owned, ?_⟩⟩
      · rw [start, beq_iff_eq]
        simp only [Object.mutatorAddress, wordSize, sizeofObject] at *
        omega
      · rw [Bool.and_eq_true, decide_eq_true_iff, decide_eq_true_iff, start]
        simp only [Object.mutatorAddress, wordSize, sizeofObject] at *
        omega
    have stored : Gc.clientStore { g with memory := memory } (target + count * wordSize)
        (memory.load (source + count * wordSize)) = .ok _ := if_pos owns
    exact copied.clientStore stored

/-- `GC_realloc` moves the object: `allocated` is the state before the copy, `moved` that
before the old object is freed. -/
structure Moved (env : Env) (pointer size newPointer count : Nat) (g allocated moved g' : Gc) :
    Prop where
  allocating : ∃ atomic, Source.malloc env size atomic g = .ok (newPointer, allocated)
  fewer : count * wordSize ≤ size
  moving : ∃ finalizer deleted, GlobalAllocator.deleteFinalizer (pointer - sizeofObject)
      { allocated with memory := Source.copyWords allocated.memory newPointer pointer count } =
        .ok (finalizer, deleted) ∧
    Source.moveFinalizer finalizer (pointer - sizeofObject) (newPointer - sizeofObject) deleted =
      .ok moved
  freeing : Source.free env pointer moved = .ok g'

/-- What `GC_realloc` does. -/
theorem realloc_cases {env : Env} {pointer size newPointer : Nat}
    (success : Source.realloc env pointer size g = .ok (newPointer, g')) :
    Source.malloc env size 0 g = .ok (newPointer, g') ∨ Source.free env pointer g = .ok g' ∨
      g' = g ∨ ∃ count allocated moved, Moved env pointer size newPointer count g allocated moved g' := by
  rw [Source.realloc] at success
  split at success
  · exact Or.inl success
  split at success
  · obtain ⟨freed, freeing, done⟩ := bind_eq_ok.mp success
    simp only [Except.ok.injEq, Prod.mk.injEq] at done
    exact Or.inr (Or.inl (done.2 ▸ freeing))
  dsimp only at success
  split at success
  · simp only [Except.ok.injEq, Prod.mk.injEq] at success
    exact Or.inr (Or.inr (Or.inl success.2.symm))
  obtain ⟨⟨newer, allocated⟩, allocating, rest⟩ := bind_eq_ok.mp success
  dsimp only at rest
  obtain ⟨⟨finalizer, deleted⟩, deleting, rest'⟩ := bind_eq_ok.mp rest
  obtain ⟨moved, moving, rest''⟩ := bind_eq_ok.mp rest'
  obtain ⟨freed, freeing, done⟩ := bind_eq_ok.mp rest''
  simp only [Except.ok.injEq, Prod.mk.injEq] at done
  obtain ⟨rfl, rfl⟩ := done
  refine Or.inr (Or.inr (Or.inr ⟨_, allocated, moved, ⟨_, allocating⟩, ?_,
    ⟨finalizer, deleted, deleting, moving⟩, freeing⟩))
  simp only [wordSize]
  omega

/-- The newest object takes what fits the request. -/
theorem HandedOut.copied {pointer size newPointer count : Nat} (out : HandedOut size newPointer g)
    (ok : HeapOk setup g) (fewer : count * wordSize ≤ size) :
    HeapOk setup { g with memory := Source.copyWords g.memory newPointer pointer count } := by
  obtain ⟨new, older, live, address, enough⟩ := out
  exact ok.copyWords (live ▸ List.mem_cons_self) address (by omega)

theorem Moved.copied {pointer size newPointer count : Nat} {allocated moved : Gc}
    (move : Moved setup.env pointer size newPointer count g allocated moved g')
    (ok : HeapOk setup allocated) (out : HandedOut size newPointer allocated) :
    HeapOk setup { allocated with
      memory := Source.copyWords allocated.memory newPointer pointer count } :=
  out.copied ok move.fewer

theorem HeapOk.moveFinalizer (ok : HeapOk setup g) {finalizer object newObject : Nat}
    (quiet : finalizer = null ∨ StoresOnly setup.env)
    (success : Source.moveFinalizer finalizer object newObject g = .ok g') : HeapOk setup g' := by
  rw [Source.moveFinalizer] at success
  split at success
  · next some =>
    obtain ⟨registered, registering, done⟩ := bind_eq_ok.mp success
    rw [GlobalAllocator.registerFinalizer] at registering
    obtain ⟨table, -, rest⟩ := bind_eq_ok.mp registering
    rw [← Except.ok.inj done, ← Except.ok.inj rest]
    exact (ok.table (quiet.resolve_left some) table).congr rfl rfl rfl rfl rfl
      ⟨List.Sublist.refl _, id⟩
  · exact Except.ok.inj success ▸ ok

theorem FlagsUp.deleteFinalizer {object finalizer : Nat}
    (success : GlobalAllocator.deleteFinalizer object g = .ok (finalizer, g')) :
    FlagsUp g.history g'.history := by
  obtain ⟨table, -, rfl⟩ := deleteFinalizer_ok success
  exact .refl _

theorem FlagsUp.moveFinalizer {h : History} (up : FlagsUp h g.history)
    {finalizer object newObject : Nat}
    (success : Source.moveFinalizer finalizer object newObject g = .ok g') :
    FlagsUp h g'.history := by
  rw [Source.moveFinalizer] at success
  split at success
  · obtain ⟨registered, registering, done⟩ := bind_eq_ok.mp success
    rw [GlobalAllocator.registerFinalizer] at registering
    obtain ⟨table, -, rest⟩ := bind_eq_ok.mp registering
    rw [← Except.ok.inj done, ← Except.ok.inj rest]
    exact ⟨up.staleNext, up.shortLimit, up.holeInObject, up.serials, up.calls⟩
  · exact Except.ok.inj success ▸ up

section Moving
variable {pointer size newPointer count : Nat} {allocated moved : Gc}
  (move : Moved setup.env pointer size newPointer count g allocated moved g')

include move

theorem Moved.flags : FlagsUp allocated.history moved.history := by
  obtain ⟨finalizer, deleted, deleting, moving⟩ := move.moving
  exact (FlagsUp.deleteFinalizer deleting).moveFinalizer moving

theorem Moved.ok (ok : HeapOk setup allocated) (out : HandedOut size newPointer allocated) :
    HeapOk setup moved := by
  obtain ⟨finalizer, deleted, deleting, moving⟩ := move.moving
  obtain ⟨kept, quiet⟩ := (move.copied ok out).deleteFinalizer deleting
  exact kept.moveFinalizer quiet moving

end Moving

namespace Whole

theorem free (whole : Whole setup g) {pointer : Nat}
    (success : Source.free setup.env pointer g = .ok g') : Whole setup g' :=
  whole.step ((FlagsUp.refl _).free success) fun ok => Or.inr (ok.free success)

theorem realloc (whole : Whole setup g) (registered : g.current ∈ setup.registered)
    {pointer size newPointer : Nat} (bound : size ≤ 2 ^ 64 - 24)
    (success : Source.realloc setup.env pointer size g = .ok (newPointer, g')) :
    Whole setup g' := by
  obtain allocating | freeing | rfl | ⟨count, allocated, moved, move⟩ := realloc_cases success
  · exact (whole.malloc registered bound allocating).1
  · exact whole.free freeing
  · exact whole
  obtain ⟨atomic, allocating⟩ := move.allocating
  obtain ⟨kept, out⟩ := whole.malloc registered bound allocating
  refine Whole.free (kept.step move.flags fun ok => ?_) move.freeing
  exact out.imp (Or.imp move.flags.staleNext move.flags.shortLimit) (move.ok ok)

theorem registerFinalizer (whole : Whole setup g) (stores : StoresOnly setup.env)
    {pointer callback : Nat} (success : Source.registerFinalizer pointer callback g = .ok g') :
    Whole setup g' := by
  rw [Source.registerFinalizer] at success
  obtain ⟨registered, registering, done⟩ := bind_eq_ok.mp success
  rw [GlobalAllocator.registerFinalizer] at registering
  obtain ⟨table, -, rest⟩ := bind_eq_ok.mp registering
  rw [← Except.ok.inj done, ← Except.ok.inj rest]
  refine whole.step ⟨id, id, id, Nat.le_refl _, List.prefix_rfl⟩ fun ok => Or.inr ?_
  exact (ok.table stores table).congr rfl rfl rfl rfl rfl ⟨List.Sublist.refl _, id⟩

theorem clientStore (whole : Whole setup g) {address value : Nat}
    (success : g.clientStore address value = .ok g') : Whole setup g' :=
  whole.step ((FlagsUp.refl _).clientStore success) fun ok => Or.inr (ok.clientStore success)

/-- What only the client's data or the thread changes. -/
theorem congr (whole : Whole setup g) (global : g'.global = g.global)
    (allocators : g'.localAllocators = g.localAllocators) (memory : g'.memory = g.memory)
    (headers : g'.block = g.block) (locals : g'.localAllocator = g.localAllocator)
    (history : g'.history = g.history) : Whole setup g' :=
  whole.step (history ▸ .refl _) fun ok =>
    Or.inr (ok.congr global allocators memory headers locals (history ▸ .refl _))

end Whole

/-! ## Threads -/

section Threads
variable {env : Env} {smallMap largeMap self : Nat} {contents : LocalAllocator}
  {registered : List Nat}

theorem FlagsUp.initThread (success : Source.initThread env self contents g = .ok g') :
    FlagsUp g.history g'.history := by
  rw [Source.initThread] at success
  obtain ⟨reset, resetting, done⟩ := bind_eq_ok.mp success
  have kept : FlagsUp g.history reset.history :=
    FlagsUp.reset FlagsUp.feeds (FlagsUp.refl (g.setLocal self contents).history) resetting
  exact Except.ok.inj done ▸ kept

/-- `GC_init_thread`. -/
theorem Whole.initThread (whole : Whole ⟨env, smallMap, largeMap, registered⟩ g)
    (fresh : self ∉ registered) (ready : SecondBlockReady env g)
    (success : Source.initThread env self contents g = .ok g') :
    Whole ⟨env, smallMap, largeMap, registered ++ [self]⟩ g' := by
  have resets := success
  rw [Source.initThread] at resets
  obtain ⟨reset, resetting, done⟩ := bind_eq_ok.mp resets
  refine whole.step (FlagsUp.initThread success) fun ok => .intro (Running.initThread ok.running fresh ready success) ?_
  have start : Large env (g.setLocal self contents) :=
    ok.largePart.congr ⟨rfl, rfl, rfl, rfl, rfl⟩ rfl (List.Sublist.refl _) id rfl
  rw [← Except.ok.inj done]
  exact (start.reset (Large.feeds env) resetting).congr ⟨rfl, rfl, rfl, rfl, rfl⟩ rfl
    (List.Sublist.refl _) id rfl

/-- `GC_deinit_thread`. -/
theorem Whole.deinitThread (whole : Whole ⟨env, smallMap, largeMap, registered⟩ g) :
    Whole ⟨env, smallMap, largeMap, registered.erase self⟩ (Source.deinitThread self g) := by
  refine whole.step (.refl _) fun ok => Or.inr ⟨?_, ?_⟩
  · obtain ⟨bounds, allocators, beyond, homes, apart, finalizers⟩ := ok.small.shape
    exact ok.small.reshape ⟨bounds, congrArg (List.erase · self) allocators, beyond, homes, apart,
      finalizers⟩ ⟨rfl, rfl⟩ rfl rfl (fun _ member _ => member) id ⟨rfl, rfl⟩
      fun x hx => ⟨List.mem_of_mem_erase hx, .of_local rfl⟩
  · obtain ⟨chunks, large⟩ := ok.large
    exact ⟨chunks, large.congr ⟨rfl, rfl, rfl, rfl, rfl⟩ (.refl _) (List.Sublist.refl _) (Or.inr rfl)⟩

end Threads

end Steps

/-! ## Runs -/

/-- The client holds an object at this address. -/
def HeldPointer (g : Gc) (pointer : Nat) : Prop :=
  ∃ a ∈ g.history.live, pointer = Object.mutatorAddress a.object

/-- What the threads of a program do next. Only a registered thread allocates, pointers are
those of live objects, and a request and its header stay below 2^64. -/
inductive HeapStep (env : Env) : Gc → Gc → Prop where
  /-- `GC_init_thread`, whatever the struct `malloc` returned contains. -/
  | initThread {g g' : Gc} {self : Nat} {contents : LocalAllocator} (fresh : self ∉ g.localAllocators)
      (ready : SecondBlockReady env g) (success : initThread env self contents g = .ok g') :
      HeapStep env g g'
  | deinitThread {g : Gc} (self : Nat) : HeapStep env g (deinitThread self g)
  /-- Another thread goes on. -/
  | switch {g : Gc} {self : Nat} (registered : self ∈ g.localAllocators) :
      HeapStep env g { g with current := self }
  | reset {g g' : Gc} {self : Nat}
      (success : LocalAllocator.reset (collectOnce env) self g = .ok g') : HeapStep env g g'
  | malloc {g g' : Gc} {size atomic pointer : Nat} (registered : g.current ∈ g.localAllocators)
      (bound : size ≤ 2 ^ 64 - 24) (success : malloc env size atomic g = .ok (pointer, g')) :
      HeapStep env g g'
  | realloc {g g' : Gc} {pointer size newPointer : Nat} (registered : g.current ∈ g.localAllocators)
      (held : pointer = null ∨ HeldPointer g pointer) (bound : size ≤ 2 ^ 64 - 24)
      (success : realloc env pointer size g = .ok (newPointer, g')) : HeapStep env g g'
  | free {g g' : Gc} {pointer : Nat} (held : pointer = null ∨ HeldPointer g pointer)
      (success : free env pointer g = .ok g') : HeapStep env g g'
  | registerFinalizer {g g' : Gc} {pointer callback : Nat} (held : HeldPointer g pointer)
      (stores : StoresOnly env) (success : registerFinalizer pointer callback g = .ok g') :
      HeapStep env g g'
  | collect {g g' : Gc} (success : collectOnce env g = .ok g') : HeapStep env g g'
  /-- The client writes a word of its own, or of an object. -/
  | write {g g' : Gc} {address value : Nat} (success : g.clientStore address value = .ok g') :
      HeapStep env g g'
  /-- What the collect callback will register. -/
  | roots {g : Gc} (script : List (List Region)) : HeapStep env g { g with rootScript := script }

/-- A program from the state `GC_init` left on. -/
inductive HeapRun (env : Env) (start : Gc) : Gc → Prop where
  | init : HeapRun env start start
  | step {g g' : Gc} (run : HeapRun env start g) (step : HeapStep env g g') : HeapRun env start g'

section Runs
variable {env : Env} {smallMap largeMap memoryLimit freeSpaceDivisor initialSize self : Nat}
  {memory : Memory} {contents : LocalAllocator} {start g g' : Gc}

/-- The registered allocators are those of the state. -/
theorem Whole.current {registered : List Nat} (whole : Whole ⟨env, smallMap, largeMap, registered⟩ g) :
    Whole ⟨env, smallMap, largeMap, g.localAllocators⟩ g := by
  refine whole.step (.refl _) fun ok => ?_
  have same : g.localAllocators = registered := ok.small.shape.allocators
  rw [same]
  exact Or.inr ok

/-- The step lemma. -/
theorem Whole.heapStep (whole : Whole ⟨env, smallMap, largeMap, g.localAllocators⟩ g)
    (step : HeapStep env g g') : Whole ⟨env, smallMap, largeMap, g'.localAllocators⟩ g' := by
  cases step with
  | initThread fresh ready success => exact (whole.initThread fresh ready success).current
  | deinitThread self => exact whole.deinitThread.current
  | switch registered => exact whole.congr rfl rfl rfl rfl rfl rfl
  | reset success => exact (whole.reset success).current
  | malloc registered bound success => exact (whole.malloc registered bound success).1.current
  | realloc registered held bound success => exact (whole.realloc registered bound success).current
  | free held success => exact (whole.free success).current
  | registerFinalizer held stores success => exact (whole.registerFinalizer stores success).current
  | collect success => exact (whole.collectOnce success).current
  | write success => exact (whole.clientStore success).current
  | roots script => exact whole.congr rfl rfl rfl rfl rfl rfl

/-- The heap that `GC_init` starts the first thread on. -/
theorem init_heapOk (mapped : Mapped smallMap largeMap memoryLimit initialSize)
    (success : Source.init env smallMap largeMap memoryLimit freeSpaceDivisor initialSize memory self
      contents = .ok g) : ∃ g₀, HeapOk ⟨env, smallMap, largeMap, []⟩ g₀ ∧ SecondBlockReady env g₀ ∧
      g₀.history = History.empty ∧ Hash.create 8 = .ok g₀.global.finalizers ∧
      g₀.collector = ⟨[], false⟩ ∧ initThread env self contents g₀ = .ok g := by
  obtain ⟨g₀, started, allocators, history, collector, thread⟩ := init_threads success
  obtain ⟨stock, ready⟩ : Stock ⟨env, smallMap, largeMap, []⟩ _ g₀ ∧ SecondBlockReady env g₀ :=
    init_stock mapped started allocators history
  obtain ⟨-, -, freeList, finalizers, -, created, global⟩ := init_ok started
  exact ⟨g₀, ⟨stock, _, init_largeLive mapped started history⟩, ready, history, global ▸ created,
    collector, thread⟩

/-- `GC_init`. -/
theorem init_whole (mapped : Mapped smallMap largeMap memoryLimit initialSize)
    (success : Source.init env smallMap largeMap memoryLimit freeSpaceDivisor initialSize memory self
      contents = .ok g) : Whole ⟨env, smallMap, largeMap, g.localAllocators⟩ g := by
  obtain ⟨g₀, ok, ready, -, -, -, thread⟩ := init_heapOk mapped success
  exact (Whole.initThread (Or.inr ok) List.not_mem_nil ready thread).current

/-- The run lemma. -/
theorem HeapRun.whole (mapped : Mapped smallMap largeMap memoryLimit initialSize)
    (init : Source.init env smallMap largeMap memoryLimit freeSpaceDivisor initialSize memory self
      contents = .ok start) (run : HeapRun env start g) :
    Whole ⟨env, smallMap, largeMap, g.localAllocators⟩ g := by
  induction run with
  | init => exact init_whole mapped init
  | step _ step ih => exact ih.heapStep step

/-- No `initCursor` took a free block while `next` was set, and no sweep measured a long last
chunk. -/
def NoFlag (g : Gc) : Prop := g.history.staleNext = false ∧ g.history.shortLimit = false

theorem Whole.ok {setup : Setup} (whole : Whole setup g) (clear : NoFlag g) :
    HeapOk setup g := by
  refine whole.resolve_left fun set => ?_
  rw [clear.1, clear.2] at set
  simp at set

end Runs
end ImmixGc.Guarantees
