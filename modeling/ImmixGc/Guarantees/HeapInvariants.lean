import ImmixGc.Guarantees.CollectionSafety

/-!
# Invariants of running programs

The calls that allocate consist of collections and of steps that at most add an object to the
live ones. An invariant that collections and such steps keep is kept by every call that
allocates, also when collections happen inside it.
-/
namespace ImmixGc.Guarantees
open Source Foundation

/-- At most one object is new, and every other is what it was. -/
structure Extended (g g' : Gc) : Prop where
  serials : g.history.serials ≤ g'.history.serials
  live : g'.history.live = g.history.live ∨ ∃ new, g'.history.live = new :: g.history.live ∧
    g.history.serials ≤ new.serial ∧ new.serial < g'.history.serials
  kept : ∀ a ∈ g.history.live, Preserved (fun _ => False) g g' a
  finalizers : g'.global.finalizers = g.global.finalizers
  registered : g'.history.registered = g.history.registered
  called : g'.history.called = g.history.called
  roots : g'.collector.roots = g.collector.roots

/-- What the steps of allocating calls keep, between heaps as they should be. -/
structure StepsKeep (env : Env) (invariant : Gc → Prop) : Prop where
  extended : ∀ {setup setup' g g'}, HeapOk setup g → HeapOk setup' g' → invariant g →
    FlagsUp g.history g'.history → Extended g g' → invariant g'
  collected : ∀ {setup g g'}, HeapOk setup g → HeapOk setup g' → setup.env = env → invariant g →
    collectOnce env g = .ok g' → NoFlag g' → invariant g'

/-- What the steps of a program keep, if those that write a word of the client are `allowed`. -/
structure RunKeeps (env : Env) (allowed : Gc → Gc → Prop) (invariant : Gc → Prop) : Prop extends
    StepsKeep env invariant where
  freed : ∀ {setup g g' pointer}, HeapOk setup g → setup.env = env → invariant g →
    Source.free env pointer g = .ok g' → invariant g'
  reallocated : ∀ {setup g g' pointer size newPointer}, HeapOk setup g → setup.env = env →
    invariant g → g.current ∈ setup.registered → size ≤ 2 ^ 64 - 24 →
    Source.realloc env pointer size g = .ok (newPointer, g') → NoFlag g' → invariant g'
  registered : ∀ {setup g g' pointer callback}, HeapOk setup g → invariant g →
    HeldPointer g pointer → Source.registerFinalizer pointer callback g = .ok g' → invariant g'
  stored : ∀ {setup g g' address value}, HeapOk setup g → invariant g →
    g.clientStore address value = .ok g' → allowed g g' → invariant g'
  /-- Only threads and the roots of the coming collections change. -/
  framed : ∀ {g g'}, invariant g → g'.memory = g.memory → g'.global = g.global →
    g'.history = g.history → g'.collector = g.collector → invariant g'

/-- The heap some steps after `g₀`, unless one of the two flags is set. -/
structure Tracked (setup : Setup) (invariant : Gc → Prop) (g₀ g : Gc) : Prop where
  flags : FlagsUp g₀.history g.history
  kept : NoFlag g → HeapOk setup g ∧ invariant g

/-- The object handed out last got its serial number after `g₀`. -/
def NewestSince (g₀ g : Gc) : Prop := ∀ new older, g.history.live = new :: older →
  g₀.history.serials ≤ new.serial ∧ new.serial < g.history.serials

theorem Untouched.extended {g g' : Gc} (same : Untouched g g') : Extended g g' :=
  ⟨same.serials.ge, Or.inl same.live, fun a _ => same.preserved _ a, same.finalizers,
    same.registered, same.called, same.roots⟩

section Steps
variable {setup setup' : Setup} {g₀ g g' : Gc}

/-! ## Single steps -/

/-- Bumping a cursor writes no byte of another object. -/
theorem Stock.fill_loads {slots : Slot → Prop} (stock : Stock setup slots g) {x : Slot} (hx : slots x)
    {new : Allocation} (filled : FilledSlot x new g g') {a : Allocation} (member : a ∈ g.history.live)
    {word : Nat} (low : a.object ≤ word) (high : word < a.object + a.size) :
    g'.memory.load word = g.memory.load word := by
  obtain ⟨free, recyclable, own, stocked⟩ := stock
  have view := stocked.held x hx
  obtain ⟨aligned, -, start, -, stop⟩ := view.within
  have inHeap := (own.held x hx).1
  obtain ⟨atomic, memory⟩ := filled.memory
  obtain ⟨least, room⟩ := And.intro filled.least filled.room
  generalize x.block g = b at *
  generalize x.cursor g = cursor at *
  generalize x.limit g = limit at *
  simp only [sizeofObject, Block.start] at least start
  have apart : a.object + a.size ≤ cursor ∨ limit ≤ a.object := by
    by_cases here : Block.from a.object = b
    · obtain ⟨layout, holes, extent, ok, -, -⟩ := view
      obtain ⟨walked, -, whole⟩ := ok.live _ (mem_liveIn.mpr ⟨a, member, here, rfl⟩)
      have outside := ok.ok.outside a.object walked (cursor, limit) (by simp [viewOf])
      dsimp only at whole outside
      omega
    rcases stocked.shape.homes a member with home | inLarge
    · obtain ⟨layout, extent, intact⟩ := (stocked.full _ home).intact
      have within := intact.payload_within member rfl
      have beside := blocks_apart aligned (stocked.shape.bounds.aligned home) here
      simp only [Block.start] at within
      omega
    · have beside := inLarge.apart stocked.shape.bounds inHeap
      omega
  rw [memory, load_bumpMemory _ _ _ _ _ _ (by omega), if_neg (by omega), if_neg (by omega)]

/-- What keeps an object: its bytes, and the header of its chunk if it has one. -/
theorem LargeLive.preserved {env : Env} {chunks : List Nat} (large : LargeLive env chunks g)
    {a : Allocation} (member : a ∈ g.history.live) (enough : sizeofObject ≤ a.size)
    (heap : g'.global.inLargeHeap a.object = g.global.inLargeHeap a.object)
    (loads : ∀ word, a.object ≤ word → word < a.object + a.size →
      g'.memory.load word = g.memory.load word)
    (headers : ∀ chunk ∈ chunks, (g.global.largeChunkList.chunk chunk).isAllocated = true →
      (g'.global.largeChunkList.chunk chunk).object = (g.global.largeChunkList.chunk chunk).object) :
    Preserved written g g' a := by
  refine .of_parts heap (fun _ word low high => loads word low (by omega)) (fun inside => ?_)
    fun word points _ => loads word (Nat.le_trans (Nat.le_add_right _ _) points.1) points.2
  obtain ⟨chunk, inList, object, allocated, -⟩ := large.live a member inside
  rw [object, Nat.add_sub_cancel]
  exact headers chunk inList allocated

namespace HeapOk

theorem extended_fill (ok : HeapOk setup g) {x : Slot} (registered : x.owner ∈ setup.registered)
    {new : Allocation} (filled : FilledSlot x new g g')
    (serial : g.history.serials ≤ new.serial ∧ new.serial < g'.history.serials)
    (same : g'.history.registered = g.history.registered ∧ g'.history.called = g.history.called ∧
      g'.collector.roots = g.collector.roots) : Extended g g' := by
  obtain ⟨chunks, large⟩ := ok.large
  refine ⟨serial.1.trans serial.2.le, Or.inr ⟨new, filled.live, serial⟩, fun a member => ?_,
    filled.finalizers, same.1, same.2.1, same.2.2⟩
  refine large.preserved member (ok.located member).header.1
    ((SameBounds.of_space filled.space).inLargeHeap _)
    (fun word => ok.small.fill_loads registered filled member) fun chunk _ _ => ?_
  rw [filled.chunks]

theorem extended_growLarge (ok : HeapOk setup g) {increment : Nat}
    (success : GlobalAllocator.growLarge setup.env increment g = .ok g') : Extended g g' := by
  have bounds := ok.small.shape.bounds
  have kept := bounds.growLarge success
  obtain ⟨size, -, -, -, rfl⟩ := growLarge_ok bounds.bounds success
  obtain ⟨chunks, large⟩ := ok.large
  refine ⟨Nat.le_refl _, Or.inl rfl, fun a member => ?_, rfl, rfl, rfl, rfl⟩
  refine large.preserved member (ok.located member).header.1 ?_ (fun _ _ _ => rfl)
    fun chunk inList _ => ?_
  · rcases ok.small.shape.homes a member with home | inLarge
    · rw [bounds.not_inLarge home, kept.not_inLarge home]
    · rw [inLarge.1, (inLarge_grownLarge inLarge).1]
  · have other : chunk ≠ g.global.largeHeapStop := by
      rintro rfl
      exact large.ok.heap.tiling.stop_not_mem inList
    obtain ⟨link, same⟩ := grownLarge_chunk g size other
    rw [same]

theorem extended_allocated (ok : HeapOk setup g) {chunks : List Nat}
    (large : LargeLive setup.env chunks g) {size atomic chunk : Nat} {list : ChunkList}
    (inList : chunk ∈ chunks) (allocated : AllocatedFrom size atomic g chunk list g') :
    Extended g g' := by
  obtain ⟨chunks', served⟩ := allocated.served large.ok.heap inList
  have others := served.others
  have wasFree := allocated.wasFree
  have result := allocated.result
  clear allocated served
  subst result
  refine ⟨Nat.le_succ _, Or.inr ⟨_, rfl, Nat.le_refl _, Nat.lt_succ_self _⟩, fun a member => ?_,
    rfl, rfl, rfl, rfl⟩
  refine large.preserved member (ok.located member).header.1 rfl (fun _ _ _ => rfl)
    fun c inList wasAllocated => ?_
  have different : c ≠ chunk := by
    rintro rfl
    rw [wasFree] at wasAllocated
    cases wasAllocated
  rw [others c inList different]

end HeapOk

/-! ## Calls -/

namespace Tracked
variable {invariant : Gc → Prop}

theorem refl (whole : Whole setup g) (holds : HeapOk setup g → invariant g) :
    Tracked setup invariant g g :=
  ⟨.refl _, fun clear => ⟨whole.ok clear, holds (whole.ok clear)⟩⟩

theorem whole (tracked : Tracked setup invariant g₀ g) : Whole setup g := by
  by_cases clear : NoFlag g
  · exact Or.inr (tracked.kept clear).1
  · rw [NoFlag, Decidable.not_and_iff_or_not, Bool.not_eq_false, Bool.not_eq_false] at clear
    exact Or.inl clear

/-- One more step. -/
theorem step (tracked : Tracked setup invariant g₀ g) (flags : FlagsUp g.history g'.history)
    (whole : Whole setup g → Whole setup' g')
    (holds : HeapOk setup g → HeapOk setup' g' → invariant g → NoFlag g' → invariant g') :
    Tracked setup' invariant g₀ g' := by
  refine ⟨tracked.flags.trans flags, fun clear => ?_⟩
  obtain ⟨ok, before⟩ := tracked.kept (clear.before flags)
  have ok' := (whole (Or.inr ok)).ok clear
  exact ⟨ok', holds ok ok' before clear⟩

section Keeps
variable (keeps : StepsKeep setup.env invariant)

include keeps

theorem extend (tracked : Tracked setup invariant g₀ g) (flags : FlagsUp g.history g'.history)
    (whole : Whole setup g → Whole setup' g') (extended : HeapOk setup g → Extended g g') :
    Tracked setup' invariant g₀ g' :=
  tracked.step flags whole fun ok ok' holds _ => keeps.extended ok ok' holds flags (extended ok)

theorem collectOnce (tracked : Tracked setup invariant g₀ g)
    (success : Source.collectOnce setup.env g = .ok g') : Tracked setup invariant g₀ g' :=
  tracked.step ((FlagsUp.refl _).collectOnce success) (fun whole => whole.collectOnce success)
    fun ok ok' holds clear => keeps.collected ok ok' rfl holds success clear

theorem feeds : Feeds (Tracked setup invariant g₀) (Source.collectOnce setup.env) :=
  ⟨fun _ _ tracked ran => tracked.collectOnce keeps ran, fun _ _ tracked grown =>
    tracked.extend keeps ((FlagsUp.refl _).growSmall grown) (fun whole => whole.growSmall grown)
      fun _ => (Untouched.growSmall grown).extended⟩

theorem initCursor {self : Nat} (tracked : Tracked setup invariant g₀ g)
    (success : LocalAllocator.initCursor (Source.collectOnce setup.env) self g = .ok g') :
    Tracked setup invariant g₀ g' := by
  have whole := tracked.whole.initCursor success
  obtain ⟨item, taken, took, placed⟩ := initCursor_cases success
  obtain ⟨-, before, holds, shifted⟩ := nextBlock_taken (feeds keeps) tracked took
  have taking : FlagsUp before.history taken.history := shift_history shifted ▸ .refl _
  have flags : FlagsUp before.history g'.history := by
    rcases placed with ⟨-, rfl⟩ | ⟨-, hole, -, rfl⟩
    · refine ⟨fun set => ?_, taking.shortLimit, taking.holeInObject, taking.serials, taking.calls⟩
      simp [onFreeBlock, taking.staleNext set]
    · exact taking
  exact holds.extend keeps flags (fun _ => whole) fun _ =>
    ((Untouched.shift shifted).placed placed).extended

theorem initOverflowCursor {self : Nat} (tracked : Tracked setup invariant g₀ g)
    (success : LocalAllocator.initOverflowCursor (Source.collectOnce setup.env) self g = .ok g') :
    Tracked setup invariant g₀ g' := by
  have whole := tracked.whole.initOverflowCursor success
  obtain ⟨item, taken, took, rfl⟩ := initOverflowCursor_ok success
  obtain ⟨-, before, holds, shifted⟩ := nextFreeBlock_taken (feeds keeps) tracked took
  have taking : FlagsUp before.history taken.history := shift_history (Or.inr shifted) ▸ .refl _
  exact holds.extend keeps taking (fun _ => whole) fun _ =>
    ((Untouched.shift (Or.inr shifted)).onOverflowBlock).extended

theorem reset {self : Nat} (tracked : Tracked setup invariant g₀ g)
    (success : LocalAllocator.reset (Source.collectOnce setup.env) self g = .ok g') :
    Tracked setup invariant g₀ g' := by
  rw [LocalAllocator.reset] at success
  obtain ⟨middle, first, second⟩ := bind_eq_ok.mp success
  exact (tracked.initCursor keeps first).initOverflowCursor keeps second

section Allocate
variable {self size rsize atomic pointer : Nat}

theorem allocationKeeps (registered : self ∈ setup.registered) (word : rsize % wordSize = 0)
    (least : sizeofObject ≤ rsize) (most : rsize ≤ largeObjectSize) :
    AllocationKeeps (Tracked setup invariant g₀) (Source.collectOnce setup.env) self size rsize
      atomic where
  block _ _ tracked success := tracked.initCursor keeps success
  overflow _ _ tracked success := tracked.initOverflowCursor keeps success
  hole before tracked some := by
    have found : (LocalAllocator.findNextHole self before).2.history = before.history := by
      rw [LocalAllocator.findNextHole, if_pos some]
      rfl
    refine tracked.extend keeps (found ▸ .refl _) (fun whole => whole.nextHole registered some)
      fun _ => Untouched.extended ?_
    rw [LocalAllocator.findNextHole, if_pos some]
    exact ⟨⟨rfl, rfl, ⟨rfl, rfl⟩, rfl, rfl⟩, rfl, rfl, rfl, rfl⟩
  object before after object tracked bumped _ := by
    obtain ⟨x, owner, -, filled⟩ := bumped.filled word least most size atomic
    have serials := ((FlagsUp.refl before.history).bumped bumped).serials
    have flags := (FlagsUp.refl before.history).handOut bumped size atomic
    refine tracked.extend keeps flags (fun whole => whole.fill (owner ▸ registered) filled flags)
      fun ok => ok.extended_fill (owner ▸ registered) filled ⟨serials, Nat.lt_succ_self _⟩ ?_
    cases bumped with
    | main room bump => obtain ⟨header, -, rfl⟩ := bump_ok bump; exact ⟨rfl, rfl, rfl⟩
    | overflow room bump => obtain ⟨header, -, rfl⟩ := bump_ok bump; exact ⟨rfl, rfl, rfl⟩
  nowhere before after tracked bumped := by
    have never := fun ok : HeapOk setup before =>
      ok.small.not_nowhere (fun _ owner => owner ▸ registered) word least most bumped
    have flags := (FlagsUp.refl before.history).bumped bumped
    exact tracked.step flags (fun whole => whole.step flags fun ok => (never ok).elim)
      fun ok _ _ _ => (never ok).elim

theorem allocateSmall (tracked : Tracked setup invariant g₀ g) (registered : self ∈ setup.registered)
    (small : size ≤ largeObjectSize - sizeofObject)
    (success : LocalAllocator.allocateSmall setup.env (Source.collectOnce setup.env) self size atomic
      g = .ok (pointer, g')) : Tracked setup invariant g₀ g' ∧ NewestSince g₀ g' := by
  rw [LocalAllocator.allocateSmall] at success
  obtain ⟨-, -, rest⟩ := bind_eq_ok.mp success
  obtain ⟨word, enough, most⟩ := small_rsize small
  generalize roundToNextMultiple (sizeAdd size sizeofObject) wordSize = rsize at *
  have allocates : AllocationKeeps (Tracked setup invariant g₀) (Source.collectOnce setup.env) self
      size rsize atomic := allocationKeeps keeps registered word (by omega) most
  refine ⟨allocateSmallLoop_keeps allocates _ tracked rest, ?_⟩
  obtain ⟨before, object, after, holds, bumped, -, -, rfl⟩ :=
    allocateSmallLoop_handsOut allocates _ tracked rest
  have serials := holds.flags.serials.trans ((FlagsUp.refl before.history).bumped bumped).serials
  rintro new older live
  obtain ⟨rfl, -⟩ := List.cons.inj live
  exact ⟨serials, Nat.lt_succ_self _⟩

theorem allocateLarge (tracked : Tracked setup invariant g₀ g) (bound : size ≤ 2 ^ 64 - 24)
    (success : GlobalAllocator.allocateLarge setup.env (Source.collectOnce setup.env) size atomic g =
      .ok (pointer, g')) : Tracked setup invariant g₀ g' ∧ (NoFlag g' → NewestSince g₀ g') := by
  have failing : ∀ before after, Tracked setup invariant g₀ before →
      GlobalAllocator.tryAllocateLarge setup.env (roundToNextMultiple size wordSize) atomic before =
        .ok (null, after) → Tracked setup invariant g₀ after := by
    intro before after tracked tried
    refine tracked.extend keeps ((FlagsUp.refl _).tryAllocateLarge tried)
      (fun whole => whole.failed tried) fun ok => ?_
    obtain ⟨chunks, large⟩ := ok.large
    obtain ⟨-, rfl⟩ := (tryAllocateLarge_ok large.ok tried).resolve_right fun found => found.1 rfl
    exact (Untouched.refl _).extended
  have growing : ∀ before after increment, Tracked setup invariant g₀ before →
      GlobalAllocator.growLarge setup.env increment before = .ok after →
        Tracked setup invariant g₀ after := fun before after increment tracked grown =>
    tracked.extend keeps ((FlagsUp.refl _).growLarge grown) (fun whole => whole.growLarge grown)
      fun ok => ok.extended_growLarge grown
  have whole : Whole setup g' := (tracked.whole.allocateLarge bound success).imp_right And.left
  obtain ⟨before, kept, some, tried⟩ := allocateLarge_last _ tracked
    (fun _ _ tracked ran => tracked.collectOnce keeps ran) failing growing success
  have flags := (FlagsUp.refl before.history).tryAllocateLarge tried
  have found : HeapOk setup before → ∃ chunks, LargeLive setup.env chunks before ∧ ∃ chunk ∈ chunks,
      ∃ list, AllocatedFrom (roundToNextMultiple size wordSize) atomic before chunk list g' := by
    intro ok
    obtain ⟨chunks, large⟩ := ok.large
    obtain ⟨-, chunk, member, list, -, allocated⟩ :=
      (tryAllocateLarge_ok large.ok tried).resolve_left fun none => some none.1
    exact ⟨chunks, large, chunk, member, list, allocated⟩
  refine ⟨kept.extend keeps flags (fun _ => whole) fun ok => ?_, fun clear => ?_⟩
  · obtain ⟨chunks, large, chunk, member, list, allocated⟩ := found ok
    exact ok.extended_allocated large member allocated
  · obtain ⟨ok, -⟩ := kept.kept (clear.before flags)
    obtain ⟨chunks, large, chunk, member, list, allocated⟩ := found ok
    rw [allocated.result]
    rintro new older live
    obtain ⟨rfl, -⟩ := List.cons.inj live
    exact ⟨kept.flags.serials, Nat.lt_succ_self _⟩

theorem malloc (tracked : Tracked setup invariant g₀ g) (registered : g.current ∈ setup.registered)
    (bound : size ≤ 2 ^ 64 - 24)
    (success : Source.malloc setup.env size atomic g = .ok (pointer, g')) :
    Tracked setup invariant g₀ g' ∧ (NoFlag g' → NewestSince g₀ g' ∧ HandedOut size pointer g') := by
  have out := (tracked.whole.malloc registered bound success).2
  have handed : NoFlag g' → HandedOut size pointer g' := fun clear => out.resolve_left fun set => by
    rw [clear.1, clear.2] at set
    simp at set
  rw [Source.malloc, mallocWithAtomic] at success
  split at success
  · next small =>
    obtain ⟨kept, newest⟩ := tracked.allocateSmall keeps registered small success
    exact ⟨kept, fun clear => ⟨newest, handed clear⟩⟩
  · obtain ⟨kept, newest⟩ := tracked.allocateLarge keeps bound success
    exact ⟨kept, fun clear => ⟨newest clear, handed clear⟩⟩

end Allocate
end Keeps
end Tracked

theorem Whole.realloc_flags (whole : Whole setup g) (registered : g.current ∈ setup.registered)
    {pointer size newPointer : Nat} (bound : size ≤ 2 ^ 64 - 24)
    (success : Source.realloc setup.env pointer size g = .ok (newPointer, g')) :
    FlagsUp g.history g'.history := by
  have start : Tracked setup (fun _ => True) g g := .refl whole fun _ => trivial
  have keeps : StepsKeep setup.env fun _ => True :=
    ⟨fun _ _ _ _ _ => trivial, fun _ _ _ _ _ _ => trivial⟩
  obtain allocating | freeing | rfl | ⟨count, allocated, moved, move⟩ := realloc_cases success
  · exact (start.malloc keeps registered bound allocating).1.flags
  · exact (FlagsUp.refl _).free freeing
  · exact .refl _
  obtain ⟨atomic, allocating⟩ := move.allocating
  have flags := (start.malloc keeps registered bound allocating).1.flags
  exact (flags.trans move.flags).free move.freeing

theorem FlagsUp.registerFinalizer {pointer callback : Nat}
    (success : Source.registerFinalizer pointer callback g = .ok g') :
    FlagsUp g.history g'.history := by
  rw [Source.registerFinalizer] at success
  obtain ⟨registered, registering, done⟩ := bind_eq_ok.mp success
  rw [GlobalAllocator.registerFinalizer] at registering
  obtain ⟨table, -, rest⟩ := bind_eq_ok.mp registering
  rw [← Except.ok.inj done, ← Except.ok.inj rest]
  exact ⟨id, id, id, Nat.le_refl _, List.prefix_rfl⟩

/-! ## Threads -/

/-- The struct of a thread that is not registered. -/
theorem HeapOk.setLocal (ok : HeapOk setup g) {self : Nat} (fresh : self ∉ setup.registered)
    (contents : LocalAllocator) : HeapOk setup (g.setLocal self contents) := by
  obtain ⟨chunks, large⟩ := ok.large
  refine ⟨ok.small.congr rfl rfl rfl rfl (.refl _) rfl ⟨rfl, rfl⟩ fun x hx => ⟨hx, .of_local ?_⟩,
    chunks, large.congr ⟨rfl, rfl, rfl, rfl, rfl⟩ (.refl _) (List.Sublist.refl _) (Or.inr rfl)⟩
  exact store_other _ _ _ _ fun same => fresh (same ▸ hx)

variable {env : Env} {smallMap largeMap self : Nat} {contents : LocalAllocator} {registered : List Nat}
  {invariant : Gc → Prop}

/-- `GC_init_thread`. -/
theorem Tracked.initThread (keeps : StepsKeep env invariant)
    (tracked : Tracked ⟨env, smallMap, largeMap, registered⟩ invariant g₀ g)
    (fresh : self ∉ registered) (ready : SecondBlockReady env g)
    (success : Source.initThread env self contents g = .ok g') :
    Tracked ⟨env, smallMap, largeMap, registered ++ [self]⟩ invariant g₀ g' := by
  refine tracked.step (FlagsUp.initThread success)
    (fun whole => whole.initThread fresh ready success) fun ok ok' holds clear => ?_
  rw [Source.initThread] at success
  obtain ⟨reset, resetting, done⟩ := bind_eq_ok.mp success
  rw [← Except.ok.inj done] at clear ok' ⊢
  have set := ok.setLocal fresh contents
  have start : Tracked ⟨env, smallMap, largeMap, registered⟩ invariant _ (g.setLocal self contents) :=
    .refl (Or.inr set) fun _ => keeps.extended ok set holds
      (.refl _) (Untouched.extended ⟨⟨rfl, rfl, ⟨rfl, rfl⟩, rfl, rfl⟩, rfl, rfl, rfl, rfl⟩)
  obtain ⟨okReset, kept⟩ := (start.reset keeps resetting).kept ⟨clear.1, clear.2⟩
  exact keeps.extended okReset ok' kept
    (.refl _) (Untouched.extended ⟨⟨rfl, rfl, ⟨rfl, rfl⟩, rfl, rfl⟩, rfl, rfl, rfl, rfl⟩)

/-! ## Runs -/

/-- The step lemma. -/
theorem Tracked.heapStep {allowed : Gc → Gc → Prop} (keeps : RunKeeps env allowed invariant)
    (tracked : Tracked ⟨env, smallMap, largeMap, g.localAllocators⟩ invariant g₀ g)
    (step : HeapStep env g g') (quiet : allowed g g') :
    Tracked ⟨env, smallMap, largeMap, g'.localAllocators⟩ invariant g₀ g' := by
  have steps := keeps.toStepsKeep
  have current : ∀ {registered}, Tracked ⟨env, smallMap, largeMap, registered⟩ invariant g₀ g' →
      Tracked ⟨env, smallMap, largeMap, g'.localAllocators⟩ invariant g₀ g' := fun kept =>
    kept.step (.refl _) (fun whole => whole.current) fun _ _ holds _ => holds
  cases step with
  | initThread fresh ready success => exact current (tracked.initThread steps fresh ready success)
  | deinitThread self =>
    exact tracked.step (.refl _) (fun whole => whole.deinitThread)
      fun _ _ holds _ => keeps.framed holds rfl rfl rfl rfl
  | switch registered =>
    exact tracked.step (.refl _) (fun whole => whole.congr rfl rfl rfl rfl rfl rfl)
      fun _ _ holds _ => keeps.framed holds rfl rfl rfl rfl
  | reset success => exact current (tracked.reset steps success)
  | malloc registered bound success =>
    exact current (tracked.malloc steps registered bound success).1
  | realloc registered held bound success =>
    exact current (tracked.step (tracked.whole.realloc_flags registered bound success)
      (fun whole => whole.realloc registered bound success)
      fun ok _ holds clear => keeps.reallocated ok rfl holds registered bound success clear)
  | free held success =>
    exact current (tracked.step ((FlagsUp.refl _).free success) (fun whole => whole.free success)
      fun ok _ holds _ => keeps.freed ok rfl holds success)
  | registerFinalizer held stores success =>
    exact current (tracked.step (FlagsUp.registerFinalizer success)
      (fun whole => whole.registerFinalizer stores success)
      fun ok _ holds _ => keeps.registered ok holds held success)
  | collect success => exact current (tracked.collectOnce steps success)
  | write success =>
    exact current (tracked.step ((FlagsUp.refl _).clientStore success)
      (fun whole => whole.clientStore success)
      fun ok _ holds _ => keeps.stored ok holds success quiet)
  | roots script =>
    exact tracked.step (.refl _) (fun whole => whole.congr rfl rfl rfl rfl rfl rfl)
      fun _ _ holds _ => keeps.framed holds rfl rfl rfl rfl

/-- The run lemma. -/
theorem HeapRun.tracked {memoryLimit freeSpaceDivisor initialSize : Nat} {memory : Memory}
    {start : Gc} (keeps : RunKeeps env (fun _ _ => True) invariant)
    (mapped : Mapped smallMap largeMap memoryLimit initialSize)
    (init : Source.init env smallMap largeMap memoryLimit freeSpaceDivisor initialSize memory self
      contents = .ok start)
    (begins : ∀ g₀ : Gc, g₀.history = History.empty → Hash.create 8 = .ok g₀.global.finalizers →
      g₀.collector.roots = [] → invariant g₀)
    (run : HeapRun env start g) :
    ∃ g₀, Tracked ⟨env, smallMap, largeMap, g.localAllocators⟩ invariant g₀ g := by
  obtain ⟨g₀, ok, ready, history, created, collector, thread⟩ := init_heapOk mapped init
  refine ⟨g₀, ?_⟩
  induction run with
  | init =>
    have before : Tracked ⟨env, smallMap, largeMap, []⟩ invariant g₀ g₀ :=
      .refl (Or.inr ok) fun _ => begins g₀ history created (collector ▸ rfl)
    have begun := before.initThread keeps.toStepsKeep List.not_mem_nil ready thread
    exact begun.step (.refl _) (fun whole => whole.current) fun _ _ holds _ => holds
  | step _ step ih => exact ih.heapStep keeps step trivial

end Steps
end ImmixGc.Guarantees
