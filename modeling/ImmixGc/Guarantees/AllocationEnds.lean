import ImmixGc.Guarantees.CollectionEnds

/-!
# Allocations end

The loops of `GC_LocalAllocator_allocateSmall` look for room in holes, in blocks and in overflow
blocks, and each may collect or grow the heap. They end: a free block has room for every small
object, a recyclable block leaves its list when it is tried, and a collection resets the counter,
so that a second one is not due before the object is found.
-/
namespace ImmixGc.Guarantees
open Source Foundation

/-! ## Where a block comes from -/

section Supply
variable {collect : Gc → Result Gc} {g g' : Gc}

theorem bind_congr_ok {α β : Type} {step : Result α} {next next' : α → Result β}
    (same : ∀ value, step = .ok value → next value = next' value) :
    (step >>= next) = (step >>= next') := by
  cases step with
  | ok value => exact same value rfl
  | error stop => rfl

/-- `GlobalAllocator_tryCollect`, for its effect. -/
def collectIfDue (collect : Gc → Result Gc) (g : Gc) : Result Gc := do
  let (_, g) ← GlobalAllocator.tryCollect collect g
  .ok g

/-- `GC_GlobalAllocator_nextBlock` without its collection. -/
def takeListed (g : Gc) : Result (Nat × Gc) :=
  if g.global.recyclableList.isEmpty then GlobalAllocator.growAndTakeFree g
  else .ok (GlobalAllocator.shiftRecyclable g)

theorem shiftRecyclable_some (some : g.global.recyclableList.isEmpty = false) :
    (GlobalAllocator.shiftRecyclable g).1 ≠ null := by
  have first : g.global.recyclableList.first ≠ null := by simpa [BlockList.isEmpty] using some
  unfold GlobalAllocator.shiftRecyclable BlockList.shift
  rw [if_pos first]
  exact first

theorem shiftFree_some (some : g.global.freeList.isEmpty = false) :
    (GlobalAllocator.shiftFree g).1 ≠ null := by
  have first : g.global.freeList.first ≠ null := by simpa [BlockList.isEmpty] using some
  unfold GlobalAllocator.shiftFree BlockList.shift
  rw [if_pos first]
  exact first

/-- With a free block on its list, nothing grows. -/
theorem growAndTakeFree_listed (some : g.global.freeList.isEmpty = false) :
    GlobalAllocator.growAndTakeFree g = .ok (GlobalAllocator.shiftFree g) := by
  unfold GlobalAllocator.growAndTakeFree GlobalAllocator.growIfEmpty
  rw [if_neg (by rw [some]; exact Bool.false_ne_true), ok_bind, GlobalAllocator.takeFree]
  exact if_pos (shiftFree_some some)

theorem growAndTakeFree_empty (none : g.global.freeList.isEmpty = true) :
    GlobalAllocator.growAndTakeFree g = (GlobalAllocator.growSmall g >>= GlobalAllocator.takeFree) := by
  unfold GlobalAllocator.growAndTakeFree GlobalAllocator.growIfEmpty
  rw [if_pos none]

theorem takeListed_recyclable (some : g.global.recyclableList.isEmpty = false) :
    takeListed g = .ok (GlobalAllocator.shiftRecyclable g) := by
  unfold takeListed
  rw [if_neg (by rw [some]; exact Bool.false_ne_true)]

theorem takeListed_free (none : g.global.recyclableList.isEmpty = true) :
    takeListed g = GlobalAllocator.growAndTakeFree g := by
  unfold takeListed
  rw [if_pos none]

/-- `nextBlock` collects only when both lists are empty, and goes on as without the collection. -/
theorem nextBlock_eq (collect : Gc → Result Gc) (g : Gc) :
    GlobalAllocator.nextBlock collect g =
      (if g.global.recyclableList.isEmpty ∧ g.global.freeList.isEmpty then collectIfDue collect g
        else .ok g) >>= takeListed := by
  have again : ∀ middle : Gc, takeListed middle =
      if (GlobalAllocator.shiftRecyclable middle).1 ≠ null then
        .ok ((GlobalAllocator.shiftRecyclable middle).1, (GlobalAllocator.shiftRecyclable middle).2)
      else GlobalAllocator.growAndTakeFree (GlobalAllocator.shiftRecyclable middle).2 := by
    intro middle
    cases listed : middle.global.recyclableList.isEmpty with
    | false => rw [takeListed_recyclable listed, if_pos (shiftRecyclable_some listed)]
    | true =>
      rw [takeListed_free listed, shiftRecyclable_empty listed]
      rfl
  unfold GlobalAllocator.nextBlock
  dsimp only
  by_cases listed : g.global.recyclableList.isEmpty = true
  · rw [shiftRecyclable_empty listed]
    dsimp only
    rw [if_neg (not_not.mpr rfl)]
    by_cases free : g.global.freeList.isEmpty = true
    · rw [shiftFree_empty free]
      dsimp only
      rw [if_neg (not_not.mpr rfl), if_pos ⟨listed, free⟩, collectIfDue, bind_assoc]
      refine bind_congr_ok fun answer tried => ?_
      obtain ⟨collected, middle⟩ := answer
      obtain ⟨rfl, rfl⟩ | ⟨rfl, -⟩ := tryCollect_cases tried
      · rw [ok_bind, takeListed_free listed]
        rfl
      · rw [ok_bind, again]
        rfl
    · have some := Bool.eq_false_iff.mpr free
      rw [if_pos (shiftFree_some some), if_neg (fun both => free both.2), ok_bind,
        takeListed_free listed, growAndTakeFree_listed some]
  · have some := Bool.eq_false_iff.mpr listed
    rw [if_pos (shiftRecyclable_some some), if_neg (fun both => listed both.1), ok_bind,
      takeListed_recyclable some]

/-- `nextFreeBlock` collects only when the free list is empty. -/
theorem nextFreeBlock_eq (collect : Gc → Result Gc) (g : Gc) :
    GlobalAllocator.nextFreeBlock collect g =
      (if g.global.freeList.isEmpty then collectIfDue collect g else .ok g) >>=
        GlobalAllocator.growAndTakeFree := by
  unfold GlobalAllocator.nextFreeBlock
  dsimp only
  by_cases free : g.global.freeList.isEmpty = true
  · rw [shiftFree_empty free]
    dsimp only
    rw [if_neg (not_not.mpr rfl), if_pos free, collectIfDue, bind_assoc]
    refine bind_congr_ok fun answer tried => ?_
    obtain ⟨collected, middle⟩ := answer
    obtain ⟨rfl, rfl⟩ | ⟨rfl, -⟩ := tryCollect_cases tried
    · rw [ok_bind, growAndTakeFree_empty free]
      rfl
    · rw [ok_bind]
      rfl
  · have some := Bool.eq_false_iff.mpr free
    rw [if_pos (shiftFree_some some), if_neg free, ok_bind, growAndTakeFree_listed some]

end Supply

/-! ## What the lists hold -/

section Listed
variable {setup : Setup} {slots slots' : Slot → Prop} {g g' taken : Gc} {self item hole : Nat}

theorem Stock.subset (stock : Stock setup slots g) (fewer : ∀ x, slots' x → slots x) :
    Stock setup slots' g :=
  stock.congr rfl rfl rfl rfl (.refl _) rfl ⟨rfl, rfl⟩ fun x hx => ⟨fewer x hx, .of_local rfl⟩

/-- The free list, after a growth if need be, gives a free block. -/
theorem Stock.growAndTakeFree_ends (stock : Stock setup slots g) :
    Ends (SupplyStop g.global.memoryLimit)
      (fun taken => (taken.2.block taken.1).isFree = true ∧ taken.1 % blockSize = 0)
      (GlobalAllocator.growAndTakeFree g) := by
  constructor
  case stops =>
    intro stop ends
    cases free : g.global.freeList.isEmpty with
    | false =>
      rw [growAndTakeFree_listed free] at ends
      cases ends
    | true =>
      rw [growAndTakeFree_empty free] at ends
      exact stock.growAndTake_stops ends
  case returns =>
    rintro ⟨item, taken⟩ took
    have feeds : Feeds (Stock setup slots) noCollect :=
      feeds_noCollect fun _ _ stock grown => stock.growSmall grown
    obtain ⟨some, before, holds, shift⟩ := growAndTakeFree_taken feeds stock took
    exact (holds.shiftFree some shift).2

/-- A block that was taken: a free one, or the first recyclable one. -/
inductive TakenFrom (g : Gc) (taken : Nat × Gc) : Prop where
  | free (isFree : (taken.2.block taken.1).isFree = true) (aligned : taken.1 % blockSize = 0)
  | recyclable (some : g.global.recyclableList.isEmpty = false)
      (shift : GlobalAllocator.shiftRecyclable g = taken)
      (isRecyclable : (taken.2.block taken.1).isRecyclable = true)
      (opens : ∃ hole, (taken.2.block taken.1).firstFreeLine taken.1 = .ok hole)

theorem Stock.takeListed_ends (stock : Stock setup slots g) :
    Ends (SupplyStop g.global.memoryLimit) (TakenFrom g) (takeListed g) := by
  unfold takeListed
  split
  · exact stock.growAndTakeFree_ends.imp fun _ taken => .free taken.1 taken.2
  · next listed =>
    have some := Bool.eq_false_iff.mpr listed
    obtain ⟨-, isRecyclable, opens⟩ := stock.shiftRecyclable (shiftRecyclable_some some) rfl
    exact .ok (.recyclable some rfl isRecyclable opens)

/-- The allocator enters a recyclable block at its first hole. -/
theorem Stock.enterRecyclable (stock : Stock setup slots g) (some : item ≠ null)
    (shift : GlobalAllocator.shiftRecyclable g = (item, taken))
    (opens : (taken.block item).firstFreeLine item = .ok hole) :
    Stock setup (fun x => slots x ∨ x = .main self) (onFirstHole self item hole taken) := by
  obtain ⟨free, recyclable, own, stocked⟩ := stock
  obtain ⟨rest, loose, stocked', -, hole', opens', positive, view⟩ :=
    stocked.shiftRecyclable own some shift
  obtain rfl := Except.ok.inj (opens.symm.trans opens')
  refine ⟨free, rest, loose.assign rfl rfl (by simp [Slot.block, onFirstHole, Gc.setLocal])
    (main_others rfl rfl), stocked'.assign rfl rfl rfl rfl (.refl _) rfl
      (sameSlot_main rfl ⟨rfl, rfl, rfl⟩) ?_⟩
  simp only [Slot.block, Slot.cursor, Slot.limit, Slot.next, onFirstHole, Gc.setLocal, store_same]
  exact (view.nextHole positive).frame id (fun _ _ _ => rfl) rfl fun _ member _ => member

theorem HeapOk.enterRecyclable (ok : HeapOk setup g)
    (some : item ≠ null) (shift : GlobalAllocator.shiftRecyclable g = (item, taken))
    (opens : (taken.block item).firstFreeLine item = .ok hole) :
    HeapOk setup (onFirstHole self item hole taken) := by
  constructor
  · exact (ok.small.enterRecyclable some shift opens).subset fun x hx => Or.inl hx
  · obtain ⟨chunks, large⟩ := ok.large
    rw [GlobalAllocator.shiftRecyclable, Prod.mk.injEq] at shift
    obtain ⟨-, rfl⟩ := shift
    exact ⟨chunks, large.congr ⟨rfl, rfl, rfl, rfl, rfl⟩ (.refl _) (List.Sublist.refl _) (Or.inr rfl)⟩

theorem HeapOk.nextHole (ok : HeapOk setup g) (registered : self ∈ setup.registered)
    (some : (g.localAllocator self).next ≠ null) :
    HeapOk setup (LocalAllocator.findNextHole self g).2 := by
  constructor
  · exact ok.small.nextHole registered some
  · obtain ⟨chunks, large⟩ := ok.large
    rw [LocalAllocator.findNextHole, if_pos some]
    exact ⟨chunks, large.congr ⟨rfl, rfl, rfl, rfl, rfl⟩ (.refl _) (List.Sublist.refl _) (Or.inr rfl)⟩

/-- The holes of a block are few. -/
theorem Stock.chain (stock : Stock setup slots g) (held : slots (.main self)) :
    ∃ holes, HoleChain g.memory (g.localAllocator self).next holes ∧ holes.length ≤ blockSize := by
  obtain ⟨free, recyclable, own, stocked⟩ := stock
  obtain ⟨layout, holes, extent, ok, ordered, -⟩ := stocked.held _ held
  have apart : (holes.map Prod.fst).Nodup := by
    rw [List.Nodup, List.pairwise_map]
    refine (List.pairwise_cons.mp ordered).2.imp_of_mem fun {a b} member _ before => ?_
    have room := ok.chain.room a member
    omega
  have inside : ∀ x ∈ holes.map Prod.fst,
      Slot.block g (.main self) ≤ x ∧ x < Slot.block g (.main self) + blockSize := by
    intro x member
    obtain ⟨hole, inHoles, rfl⟩ := List.mem_map.mp member
    have within := ok.ok.freeOk.within hole (List.mem_cons_of_mem _ inHoles)
    have room := ok.chain.room hole inHoles
    simp only [Block.start, Block.stop] at within
    omega
  have few := length_le_of_range apart inside
  rw [List.length_map] at few
  exact ⟨holes, ok.chain, by omega⟩

/-- The recyclable blocks are blocks of the heap. -/
theorem Stock.recyclables (stock : Stock setup slots g) : ∃ items,
    Listed g.block g.global.recyclableList items ∧
      items.length ≤ g.global.memoryLimit / blockSize := by
  obtain ⟨free, recyclable, own, stocked⟩ := stock
  have heap := stocked.shape.bounds
  have total := heap.bounds.total
  have stop := heap.smallStop
  have whole := heap.whole
  have few : recyclable.length ≤ g.global.blocks.length :=
    (List.subperm_of_subset own.recyclableListed.nodup fun b member =>
      own.listed b (Or.inr member)).length_le
  refine ⟨recyclable, own.recyclableListed, few.trans ?_⟩
  rw [GlobalAllocator.blocks, List.length_map, List.length_range]
  simp only [blockSize] at *
  omega

end Listed

/-! ## When a collection is due -/

theorem NothingDue.collectIfDue {g : Gc} (nothing : NothingDue g) (collect : Gc → Result Gc) :
    collectIfDue collect g = .ok g := by
  unfold Guarantees.collectIfDue GlobalAllocator.tryCollect
  by_cases running : g.collector.isCollecting = true
  · rw [if_pos running, ok_bind]
  · have below := nothing.resolve_left running
    have some := (Nat.div_pos_iff.mp (Nat.zero_lt_of_lt below)).1.ne'
    rw [if_neg running, if_neg some, if_pos below, ok_bind]

/-- Since `g₀` recyclable blocks were taken off their list, and holes passed over. -/
structure Waiting (g₀ h : Gc) : Prop where
  collector : h.collector = g₀.collector
  script : h.rootScript = g₀.rootScript
  live : h.history.live = g₀.history.live
  global : h.global = { g₀.global with recyclableList := h.global.recyclableList }

/-- The collection stops in `h` for a reason that was there in `g₀`. -/
theorem Waiting.stop {env : Env} {g₀ h : Gc} (waiting : Waiting g₀ h) {stop : Stop}
    (why : CollectionStop env h stop) : CollectionStop env g₀ stop := by
  obtain ⟨-, script, live, global⟩ := waiting
  have owns : h.clientOwns = g₀.clientOwns := by
    funext word
    rw [Gc.clientOwns, Gc.clientOwns, live, global]
    rfl
  cases why with
  | region swapped => exact .region (script ▸ swapped)
  | finalizer why =>
    cases why with
    | calloc => exact .finalizer .calloc
    | foreign write =>
      rw [ForeignWrite, owns] at write
      exact .finalizer (.foreign write)
  | merge long =>
    rw [global] at long
    exact .merge long
  | supply why =>
    rw [global] at why
    exact .supply why

/-! ## The search for room -/

/-- What a search that started in `g₀` has left to try. As long as a collection may come, the
blocks count that it may leave on the recyclable list, and one for the collection. -/
structure Reserve (setup : Setup) (owner : Nat) (g₀ : Gc) (budget : Nat) (h : Gc) : Prop where
  stock : Stock setup (fun _ => False) h
  overflow : SlotOk h (.overflow owner)
  limit : h.global.memoryLimit = g₀.global.memoryLimit
  listed : ∃ items, Listed h.block h.global.recyclableList items ∧
    (NothingDue h ∧ items.length ≤ budget ∨ HeapOk setup h ∧ Waiting g₀ h ∧
      items.length + (g₀.global.memoryLimit / blockSize + 1) ≤ budget)

/-- A state to search from, with enough fuel, and a heap of at least `divisor` bytes. -/
structure Ready (setup : Setup) (g₀ : Gc) : Prop where
  ok : HeapOk setup g₀
  idle : Idle g₀
  enough : (g₀.rootScript.headD []).length + g₀.global.memoryLimit < setup.env.fuel
  divided : 0 < g₀.global.heapSize / g₀.global.freeSpaceDivisor

/-- What was passed over does not matter to a collection. -/
theorem Waiting.ready {setup : Setup} {g₀ h : Gc} (waiting : Waiting g₀ h) (ready : Ready setup g₀)
    (ok : HeapOk setup h) : Ready setup h := by
  obtain ⟨-, idle, enough, divided⟩ := ready
  obtain ⟨collector, script, -, global⟩ := waiting
  refine ⟨ok, idle.congr (by rw [collector]) (by rw [global]), ?_, ?_⟩
  · rw [script, global]
    exact enough
  · rw [global]
    exact divided

/-- `GlobalAllocator_tryCollect` runs a collection to its end or does nothing. -/
theorem Ready.tryCollect {setup : Setup} {g : Gc} (ready : Ready setup g) :
    Ends (CollectionStop setup.env g)
      (fun answer => answer = (false, g) ∧ NothingDue g ∨ answer.1 = true ∧ Collected setup g answer.2)
      (GlobalAllocator.tryCollect (collectOnce setup.env) g) := by
  unfold GlobalAllocator.tryCollect
  rw [if_neg (Nat.div_pos_iff.mp ready.divided).1.ne']
  split
  · next running => exact .ok (Or.inl ⟨rfl, Or.inl running⟩)
  split
  · next below => exact .ok (Or.inl ⟨rfl, Or.inr below⟩)
  apply Ends.bind (ready.ok.collectOnce_ends ready.idle.balanced ready.idle.roots ready.enough)
  exact fun c _ collected => .ok (Or.inr ⟨rfl, collected⟩)

/-- The block of the allocator has room behind its cursor. -/
def HasRoom (self rsize : Nat) (g : Gc) : Prop :=
  (g.localAllocator self).cursor + rsize ≤ (g.localAllocator self).limit

/-- The allocator may go through the holes of its block. -/
structure Entered (setup : Setup) (owner : Nat) (g₀ : Gc) (budget : Nat) (h : Gc) : Prop where
  reserve : Reserve setup owner g₀ budget h
  slot : Stock setup (fun x => x = .main owner) h

section Search
variable {setup : Setup} {self budget rsize : Nat} {g₀ h h' : Gc}

/-- Cursors do not count. -/
theorem Reserve.congr (reserve : Reserve setup self g₀ budget h)
    (stock : Stock setup (fun _ => False) h') (ok : HeapOk setup h → HeapOk setup h')
    (overflow : SlotOk h' (.overflow self)) (global : h'.global = h.global)
    (headers : h'.block = h.block) (collector : h'.collector = h.collector)
    (script : h'.rootScript = h.rootScript) (live : h'.history.live = h.history.live) :
    Reserve setup self g₀ budget h' := by
  obtain ⟨-, -, limit, items, listed, counted⟩ := reserve
  refine ⟨stock, overflow, by rw [global, limit], items, by rw [global, headers]; exact listed, ?_⟩
  obtain ⟨nothing, few⟩ | ⟨before, waiting, few⟩ := counted
  · refine Or.inl ⟨?_, few⟩
    rw [NothingDue, global, collector]
    exact nothing
  · refine Or.inr ⟨ok before, ⟨collector.trans waiting.collector, script.trans waiting.script,
      live.trans waiting.live, ?_⟩, few⟩
    rw [global]
    exact waiting.global

/-- All of what a call may try, at its start. -/
theorem HeapOk.entered (ok : HeapOk setup h) (registered : self ∈ setup.registered) :
    Entered setup self h (2 * (h.global.memoryLimit / blockSize) + 1) h := by
  obtain ⟨items, listed, few⟩ := ok.small.recyclables
  refine ⟨⟨ok.small.subset fun _ none => none.elim, ok.small.slotOk registered, rfl, items, listed,
    Or.inr ⟨ok, ⟨rfl, rfl, rfl, rfl⟩, by omega⟩⟩, ok.small.subset ?_⟩
  rintro x rfl
  exact registered

/-- A recyclable block that is entered is one block less to try. -/
theorem Reserve.enterRecyclable (reserve : Reserve setup self g₀ budget h) {item hole : Nat}
    {taken : Gc} (some : item ≠ null) (shift : GlobalAllocator.shiftRecyclable h = (item, taken))
    (opens : (taken.block item).firstFreeLine item = .ok hole) :
    ∃ less < budget, Entered setup self g₀ less (onFirstHole self item hole taken) := by
  obtain ⟨stock, overflow, limit, items, listed, counted⟩ := reserve
  have slots : Stock setup (fun x => False ∨ x = .main self) (onFirstHole self item hole taken) :=
    stock.enterRecyclable some shift opens
  have entered : HeapOk setup h → HeapOk setup (onFirstHole self item hole taken) :=
    fun ok => ok.enterRecyclable some shift opens
  cases items with
  | nil =>
    rw [shiftRecyclable_empty (listed.isEmpty_iff.mpr rfl), Prod.mk.injEq] at shift
    exact absurd shift.1.symm some
  | cons first rest =>
    obtain ⟨-, listed'⟩ := listed.shift_cons
    rw [List.length_cons] at counted
    have positive : 0 < budget := by
      generalize g₀.global.memoryLimit / blockSize = bound at counted
      omega
    rw [GlobalAllocator.shiftRecyclable, Prod.mk.injEq] at shift
    obtain ⟨-, rfl⟩ := shift
    refine ⟨budget - 1, by omega, ⟨slots.subset fun _ none => none.elim, ?_, limit, rest, listed', ?_⟩,
      slots.subset fun x here => Or.inr here⟩
    · exact SlotOk.onFirstHole (overflow.same (.of_local rfl))
    · obtain ⟨nothing, few⟩ | ⟨ok, waiting, few⟩ := counted
      · exact Or.inl ⟨nothing, by omega⟩
      · refine Or.inr ⟨entered ok, ⟨waiting.collector, waiting.script, waiting.live, ?_⟩, by omega⟩
        dsimp only [onFirstHole, Gc.setLocal]
        rw [waiting.global]

/-- Entering the next hole leaves the overflow block alone. -/
theorem SlotOk.findNextHole (ok : SlotOk h (.overflow self)) :
    SlotOk (LocalAllocator.findNextHole self h).2 (.overflow self) := by
  rw [LocalAllocator.findNextHole]
  split
  · refine ok.same ⟨?_, ?_, ?_, rfl⟩
    all_goals simp only [Slot.block, Slot.cursor, Slot.limit, Gc.setLocal, store_same]
  · exact ok

/-- The next hole of the block. -/
theorem Entered.nextHole (entered : Entered setup self g₀ budget h)
    (registered : self ∈ setup.registered) (some : (h.localAllocator self).next ≠ null) :
    Entered setup self g₀ budget (LocalAllocator.findNextHole self h).2 := by
  obtain ⟨reserve, slot⟩ := entered
  have next := slot.nextHole rfl some
  have ok : HeapOk setup h → HeapOk setup (LocalAllocator.findNextHole self h).2 :=
    fun ok => ok.nextHole registered some
  have overflow := reserve.overflow.findNextHole
  refine ⟨?_, next⟩
  rw [LocalAllocator.findNextHole, if_pos some] at next ok overflow ⊢
  exact reserve.congr (next.subset fun _ none => none.elim) ok overflow rfl rfl rfl rfl rfl

theorem HoleChain.nextHole {hole : Nat × Nat} {rest : List (Nat × Nat)}
    (chain : HoleChain h.memory (h.localAllocator self).next (hole :: rest))
    (some : (h.localAllocator self).next ≠ null) :
    HoleChain (LocalAllocator.findNextHole self h).2.memory
      ((LocalAllocator.findNextHole self h).2.localAllocator self).next rest := by
  obtain ⟨first, links⟩ := chain.links
  rw [LocalAllocator.findNextHole, if_pos some]
  simp only [Gc.setLocal, store_same]
  exact ⟨first ▸ links, fun hole member => chain.limits hole (List.mem_cons_of_mem _ member),
    fun hole member => chain.room hole (List.mem_cons_of_mem _ member)⟩

/-- An object that fits the hole is allocated in it. -/
theorem tryAllocateSmall_room {allowed : Stop → Prop} {collect : Gc → Result Gc}
    (slot : SlotOk h (.main self)) (least : sizeofObject ≤ rsize) (room : HasRoom self rsize h)
    (fuel : Nat) :
    Ends allowed (fun result => result.1 ≠ null)
      (LocalAllocator.tryAllocateSmall collect self rsize (fuel + 1) h) := by
  obtain ⟨some, bumped, bump⟩ := slot.bump_ends least room
  simp only [Slot.block, Slot.cursor, Slot.limit] at some bump
  unfold HasRoom at room
  rw [LocalAllocator.tryAllocateSmall, if_pos room, bump, ok_bind]
  exact .ok some

theorem overflowAllocateSmall_room {allowed : Stop → Prop} {collect : Gc → Result Gc}
    (slot : SlotOk h (.overflow self)) (least : sizeofObject ≤ rsize)
    (room : (h.localAllocator self).overflowCursor + rsize ≤ (h.localAllocator self).overflowLimit)
    (fuel : Nat) :
    Ends allowed (fun result => result.1 ≠ null)
      (LocalAllocator.overflowAllocateSmall collect self rsize (fuel + 1) h) := by
  obtain ⟨some, bumped, bump⟩ := slot.bump_ends least room
  simp only [Slot.block, Slot.cursor, Slot.limit] at some bump
  rw [LocalAllocator.overflowAllocateSmall, if_pos room, bump, ok_bind]
  exact .ok some

/-- An allocated object is handed out behind its header. -/
theorem handsOut_ends {allowed : Stop → Prop} {object : Nat} (some : object ≠ null) (g : Gc) :
    Ends allowed (fun result : Nat × Gc => result.1 ≠ null)
      (.ok (Object.mutatorAddress object, g)) := by
  refine .ok ?_
  simp only [Object.mutatorAddress, null] at *
  omega

theorem allocateSmallLoop_room {allowed : Stop → Prop} {collect : Gc → Result Gc}
    (slot : SlotOk h (.main self)) (least : sizeofObject ≤ rsize) (room : HasRoom self rsize h)
    (size atomic fuel : Nat) :
    Ends allowed (fun result => result.1 ≠ null)
      (LocalAllocator.allocateSmallLoop collect self size rsize atomic (fuel + 2) h) := by
  rw [LocalAllocator.allocateSmallLoop]
  apply Ends.bind (tryAllocateSmall_room slot least room fuel)
  rintro ⟨object, after⟩ - some
  dsimp only at some ⊢
  rw [if_pos some]
  exact handsOut_ends some _

namespace Ready

/-- A collection ends. After it nothing is due, and its recyclable blocks were counted. -/
theorem collectIfDue (ready : Ready setup g₀) (registered : self ∈ setup.registered)
    (reserve : Reserve setup self g₀ budget h) :
    Ends (CollectionStop setup.env g₀) (Reserve setup self g₀ budget)
      (collectIfDue (collectOnce setup.env) h) := by
  obtain ⟨items, listed, ⟨nothing, few⟩ | ⟨ok, waiting, counted⟩⟩ := reserve.listed
  · rw [nothing.collectIfDue]
    exact .ok reserve
  have ready' := waiting.ready ready ok
  unfold Guarantees.collectIfDue
  apply Ends.bind (ready'.tryCollect.widen fun _ => waiting.stop)
  rintro ⟨collected, c⟩ - (⟨nothing, -⟩ | ⟨-, collected⟩)
  · obtain ⟨rfl, rfl⟩ := Prod.mk.inj nothing
    exact .ok reserve
  obtain ⟨-, stock, same, rested, overflow, -⟩ := collected
  obtain ⟨items', listed', few⟩ := stock.recyclables
  dsimp only at same few
  rw [same, reserve.limit] at few
  have nothing : NothingDue c := by
    refine Or.inr ?_
    rw [rested.counter trivial, rested.divided]
    exact Nat.lt_of_lt_of_le ready'.divided (Nat.div_le_div_right rested.grown)
  exact .ok ⟨stock, overflow self registered, same.trans reserve.limit, items', listed',
    Or.inl ⟨nothing, by omega⟩⟩

theorem restock (ready : Ready setup g₀) (registered : self ∈ setup.registered)
    (reserve : Reserve setup self g₀ budget h) (exhausted : Prop) [Decidable exhausted] :
    Ends (CollectionStop setup.env g₀) (Reserve setup self g₀ budget)
      (if exhausted then Guarantees.collectIfDue (collectOnce setup.env) h else .ok h) := by
  split
  · exact ready.collectIfDue registered reserve
  · exact .ok reserve

/-- A new block has room for every small object, or it was a recyclable one. -/
theorem initCursor (ready : Ready setup g₀) (registered : self ∈ setup.registered)
    (reserve : Reserve setup self g₀ budget h) :
    Ends (CollectionStop setup.env g₀)
      (fun h' => HasRoom self largeObjectSize h' ∧ SlotOk h' (.main self) ∨
        ∃ less < budget, Entered setup self g₀ less h')
      (LocalAllocator.initCursor (collectOnce setup.env) self h) := by
  rw [initCursor_eq, nextBlock_eq, bind_assoc]
  apply Ends.bind (ready.restock registered reserve _)
  intro c _ reserve'
  have taking := reserve'.stock.takeListed_ends
  apply Ends.bind (taking.widen fun _ why => .supply (reserve'.limit ▸ why))
  rintro ⟨item, taken⟩ - source
  cases source with
  | free isFree aligned =>
    dsimp only at isFree aligned ⊢
    rw [if_pos isFree]
    refine .ok (Or.inl ⟨?_, SlotOk.whole aligned ?_ ?_ ?_⟩)
    · unfold HasRoom onFreeBlock
      simp only [store_same, Block.start, Block.stop, lineSize, largeObjectSize, blockSize]
      omega
    all_goals simp only [Slot.block, Slot.cursor, Slot.limit, onFreeBlock, store_same]
  | recyclable listed shift isRecyclable opens =>
    obtain ⟨hole, first⟩ := opens
    have some := shiftRecyclable_some listed
    rw [shift] at some
    dsimp only at isRecyclable first some ⊢
    rw [if_neg (notFree_of_recyclable isRecyclable), if_pos isRecyclable, first, ok_bind]
    exact .ok (Or.inr (reserve'.enterRecyclable some shift first))

/-- A new overflow block has room for every small object. -/
theorem initOverflowCursor (ready : Ready setup g₀) (registered : self ∈ setup.registered)
    (reserve : Reserve setup self g₀ budget h) :
    Ends (CollectionStop setup.env g₀)
      (fun h' => (h'.localAllocator self).overflowCursor + largeObjectSize ≤
        (h'.localAllocator self).overflowLimit ∧ SlotOk h' (.overflow self))
      (LocalAllocator.initOverflowCursor (collectOnce setup.env) self h) := by
  unfold LocalAllocator.initOverflowCursor
  rw [nextFreeBlock_eq, bind_assoc]
  apply Ends.bind (ready.restock registered reserve _)
  intro c _ reserve'
  have taking := reserve'.stock.growAndTakeFree_ends
  apply Ends.bind (taking.widen fun _ why => .supply (reserve'.limit ▸ why))
  rintro ⟨item, taken⟩ - ⟨-, aligned⟩
  refine .ok ⟨?_, SlotOk.whole aligned ?_ ?_ ?_⟩
  · simp only [Gc.setLocal, store_same, Block.start, Block.stop, lineSize, largeObjectSize, blockSize]
    omega
  all_goals simp only [Slot.block, Slot.cursor, Slot.limit, Gc.setLocal, store_same]

/-- `LocalAllocator_overflowAllocateSmall` tries at most two blocks. -/
theorem overflowAllocateSmall (ready : Ready setup g₀) (registered : self ∈ setup.registered)
    (reserve : Reserve setup self g₀ budget h) (least : sizeofObject ≤ rsize)
    (most : rsize ≤ largeObjectSize) (fuel : Nat) :
    Ends (CollectionStop setup.env g₀) (fun result => result.1 ≠ null)
      (LocalAllocator.overflowAllocateSmall (collectOnce setup.env) self rsize (fuel + 2) h) := by
  by_cases room : (h.localAllocator self).overflowCursor + rsize ≤ (h.localAllocator self).overflowLimit
  · exact overflowAllocateSmall_room reserve.overflow least room (fuel + 1)
  · rw [LocalAllocator.overflowAllocateSmall, if_neg room]
    apply Ends.bind (ready.initOverflowCursor registered reserve)
    rintro h' - ⟨room', slot⟩
    exact overflowAllocateSmall_room slot least (by omega) fuel

/-- `LocalAllocator_tryAllocateSmall` goes through the holes of the block once. -/
theorem tryAllocateSmall (ready : Ready setup g₀) (registered : self ∈ setup.registered)
    (least : sizeofObject ≤ rsize) (most : rsize ≤ largeObjectSize) (fuel : Nat)
    (holes : List (Nat × Nat)) {h : Gc} (entered : Entered setup self g₀ budget h)
    (chain : HoleChain h.memory (h.localAllocator self).next holes)
    (enough : holes.length + 3 ≤ fuel) :
    Ends (CollectionStop setup.env g₀)
      (fun result => result.1 ≠ null ∨ Reserve setup self g₀ budget result.2)
      (LocalAllocator.tryAllocateSmall (collectOnce setup.env) self rsize fuel h) := by
  induction fuel generalizing holes h with
  | zero => omega
  | succ fuel ih =>
    by_cases room : HasRoom self rsize h
    · exact (tryAllocateSmall_room (entered.slot.slotOk rfl) least room fuel).imp fun _ => Or.inl
    unfold HasRoom at room
    rw [LocalAllocator.tryAllocateSmall, if_neg room]
    split
    · obtain ⟨fuel, rfl⟩ : ∃ n, fuel = n + 2 := ⟨fuel - 2, by omega⟩
      exact (ready.overflowAllocateSmall registered entered.reserve least most fuel).imp
        fun _ => Or.inl
    obtain ⟨some, found⟩ | none := findNextHole_cases self h
    · cases holes with
      | nil => exact absurd chain.links some
      | cons hole rest =>
        rw [List.length_cons] at enough
        rw [found]
        dsimp only
        rw [if_pos rfl]
        exact ih rest (entered.nextHole registered some) (chain.nextHole some) (by omega)
    · rw [none]
      exact .ok (Or.inr entered.reserve)

/-- The loop: each round tries a block, and there are only so many to try. -/
theorem allocateSmallLoop (ready : Ready setup g₀) (registered : self ∈ setup.registered)
    (least : sizeofObject ≤ rsize) (most : rsize ≤ largeObjectSize) (size atomic fuel : Nat)
    {h : Gc} (entered : Entered setup self g₀ budget h) (enough : budget + blockSize + 4 ≤ fuel) :
    Ends (CollectionStop setup.env g₀) (fun result => result.1 ≠ null)
      (LocalAllocator.allocateSmallLoop (collectOnce setup.env) self size rsize atomic fuel h) := by
  induction fuel generalizing budget h with
  | zero => omega
  | succ fuel ih =>
    obtain ⟨holes, chain, few⟩ := entered.slot.chain rfl
    rw [LocalAllocator.allocateSmallLoop]
    apply Ends.bind (ready.tryAllocateSmall registered least most fuel holes entered chain (by omega))
    rintro ⟨object, tried⟩ - outcome
    dsimp only at outcome ⊢
    split
    · next some => exact handsOut_ends some _
    next none =>
    apply Ends.bind (ready.initCursor registered (outcome.resolve_left none))
    rintro h' - (⟨room, slot⟩ | ⟨less, fewer, entered'⟩)
    · obtain ⟨fuel, rfl⟩ : ∃ n, fuel = n + 2 := ⟨fuel - 2, by omega⟩
      have fits : HasRoom self rsize h' := by
        unfold HasRoom at *
        omega
      exact allocateSmallLoop_room slot least fits size atomic fuel
    · exact ih entered' (by omega)

/-- A small allocation ends. -/
theorem allocateSmall (ready : Ready setup h) (registered : self ∈ setup.registered) {size : Nat}
    (atomic : Nat) (small : size ≤ largeObjectSize - sizeofObject) :
    Ends (CollectionStop setup.env h) (fun result => result.1 ≠ null)
      (LocalAllocator.allocateSmall setup.env (collectOnce setup.env) self size atomic h) := by
  obtain ⟨-, least, most⟩ := small_rsize small
  have bounds := ready.ok.small.shape.bounds
  have entered := ready.ok.entered registered
  have enough := ready.enough
  unfold LocalAllocator.allocateSmall
  dsimp only
  rw [check_of_true (decide_eq_true most), ok_bind]
  refine ready.allocateSmallLoop registered (by omega) most size atomic _ entered ?_
  have least := bounds.bounds.small
  have large := bounds.large
  have total := bounds.bounds.total
  simp only [blockSize] at *
  omega

end Ready

end Search

/-! ## Large objects -/

section Large
variable {setup : Setup} {env : Env} {allowed : Stop → Prop} {g : Gc} {chunks : List Nat}
  {rsize atomic size : Nat}

theorem LargeOk.length_le {global : GlobalAllocator} (ok : LargeOk global chunks) :
    chunks.length ≤ global.memoryLimit := by
  have few := ok.heap.tiling.length_le
  have stop := ok.heap.stop
  have total := ok.bounds.total
  omega

/-- The list walk ends, and without a chunk it changes nothing. -/
theorem tryAllocateLarge_ends (ok : LargeOk g.global chunks)
    (enough : g.global.memoryLimit < env.fuel) :
    Ends allowed (fun result => result.1 = null → result.2 = g)
      (GlobalAllocator.tryAllocateLarge env rsize atomic g) := by
  have few := ok.length_le
  unfold GlobalAllocator.tryAllocateLarge
  rcases tryAllocateLargeFrom_spec ok.heap rsize atomic env.fuel g.global.largeChunkList.first [] chunks
      rfl ok.heap.tiling.linked with ⟨-, short⟩ | ⟨none, -⟩ | ⟨c, -, list, g', found, -⟩
  · omega
  · rw [none]
    exact .ok fun _ => rfl
  · rw [found]
    refine .ok fun none => ?_
    simp only [Chunk.mutatorAddress, sizeofChunk, null] at none
    omega

/-- The chunk that is added has room for the object. -/
theorem LargeOk.growAndAllocateLarge_ends (ok : LargeOk g.global chunks) (exact : ExactLog env)
    (request : rsize < 2 ^ 62) (enough : g.global.memoryLimit < env.fuel)
    (refused : allowed outOfMemory) :
    Ends allowed (fun result => result.1 ≠ null)
      (GlobalAllocator.growAndAllocateLarge env rsize atomic g) := by
  unfold GlobalAllocator.growAndAllocateLarge
  obtain none | ⟨bytes, grown, -, -, -, usable⟩ := growLarge_room ok.bounds exact request
  · rw [none]
    exact .error refused
  have ok' := ok.growLarge grown
  have few := ok'.length_le
  rw [grown, ok_bind]
  obtain ⟨-, short⟩ | ⟨mutator, g', found, some⟩ :=
    tryAllocateLarge_finds env ok'.heap (by simp) usable atomic
  · simp only [grownLarge] at few
    omega
  · rw [found, ok_bind]
    dsimp only
    rw [if_pos some]
    exact .ok some

/-- A large allocation ends, if the collection it may run can merge all chunks. -/
theorem Ready.allocateLarge (ready : Ready setup g) (exact : ExactLog setup.env)
    (request : size ≤ 2 ^ 62 - 8) (atomic : Nat) (short : g.global.largeHeapSize < 2 ^ 31) :
    Ends (CollectionStop setup.env g) (fun result => result.1 ≠ null)
      (GlobalAllocator.allocateLarge setup.env (collectOnce setup.env) size atomic g) := by
  have enough := ready.enough
  have rounded : roundToNextMultiple size wordSize < 2 ^ 62 := by
    rw [roundToNextMultiple_eq _ _ (by decide) (by simp only [sizeModulus, wordSize]; omega)]
    simp only [wordSize]
    omega
  have refused : CollectionStop setup.env g outOfMemory := .supply .limit
  obtain ⟨chunks, large⟩ := ready.ok.large
  unfold GlobalAllocator.allocateLarge
  apply Ends.bind (tryAllocateLarge_ends large.ok (by omega))
  rintro ⟨mutator, g'⟩ - same
  dsimp only at same ⊢
  split
  · next some => exact .ok some
  next none =>
  obtain rfl := same (not_not.mp none)
  apply Ends.bind ready.tryCollect
  rintro ⟨collected, c⟩ - (⟨nothing, -⟩ | ⟨rfl, collected⟩)
  · obtain ⟨rfl, rfl⟩ := Prod.mk.inj nothing
    exact large.ok.growAndAllocateLarge_ends exact rounded (by omega) refused
  have limit : c.global.memoryLimit = g'.global.memoryLimit := collected.limit
  obtain ⟨chunks', large'⟩ : ∃ chunks', LargeLive setup.env chunks' c := collected.large short
  dsimp only
  rw [if_pos rfl]
  apply Ends.bind (tryAllocateLarge_ends large'.ok (by omega))
  rintro ⟨mutator', c'⟩ - same'
  dsimp only at same' ⊢
  split
  · next some => exact .ok some
  next none' =>
  obtain rfl := same' (not_not.mp none')
  exact large'.ok.growAndAllocateLarge_ends exact rounded (by omega) refused

/-- `GC_malloc` ends, whatever the size. -/
theorem Ready.malloc (ready : Ready setup g) (registered : g.current ∈ setup.registered)
    (exact : ExactLog setup.env) (request : size ≤ 2 ^ 62 - 8) (atomic : Nat)
    (short : largeObjectSize - sizeofObject < size → g.global.largeHeapSize < 2 ^ 31) :
    Ends (CollectionStop setup.env g) (fun result => result.1 ≠ null)
      (Source.malloc setup.env size atomic g) := by
  unfold Source.malloc mallocWithAtomic
  split
  · next small => exact ready.allocateSmall registered atomic small
  · next large => exact ready.allocateLarge exact request atomic (short (by omega))

end Large

/-! ## Runs -/

section Runs
variable {env : Env} {smallMap largeMap memoryLimit freeSpaceDivisor initialSize self : Nat}
  {memory : Memory} {contents : LocalAllocator} {start g : Gc}

end Runs
end ImmixGc.Guarantees
