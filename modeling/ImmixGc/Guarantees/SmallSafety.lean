import ImmixGc.Guarantees.SmallRuns

/-!
# No byte of a live object is handed out twice

Runs of one thread that asks `GC_LocalAllocator_allocateSmall` for memory, collects, resets
its allocator and writes into its objects. As long as no `initCursor` of the run takes a
free block while `next` is set, the live objects never share a byte.
-/
namespace ImmixGc.Guarantees
open Source Foundation

/-- What a program with one thread and small objects does next. -/
inductive SmallCall where
  | allocate (size atomic : Nat) (small : size ≤ largeObjectSize - sizeofObject)
  | collect
  | reset
  /-- The client writes a word of its own, or of an object. -/
  | write (address value : Nat)
  /-- What the collect callback will register. -/
  | roots (script : List (List Region))

def SmallCall.run (env : Env) (self : Nat) (g : Gc) : SmallCall → Result Gc
  | .allocate size atomic _ => do
    let (_, g) ← LocalAllocator.allocateSmall env (collectOnce env) self size atomic g
    .ok g
  | .collect => collectOnce env g
  | .reset => LocalAllocator.reset (collectOnce env) self g
  | .write address value => g.clientStore address value
  | .roots script => .ok { g with rootScript := script }

section Runs
variable {setup : Setup} {self : Nat} {g g' : Gc}

theorem Running.reset (running : Running setup g)
    (success : LocalAllocator.reset (collectOnce setup.env) self g = .ok g') : Running setup g' := by
  rw [LocalAllocator.reset] at success
  obtain ⟨middle, first, second⟩ := bind_eq_ok.mp success
  have kept : Running setup middle :=
    (Kept.initCursor (Running.feeds setup) running first).subset fun _ hx => Or.inl hx
  exact (Kept.initOverflowCursor (Running.feeds setup) kept second).subset fun _ hx => Or.inl hx

theorem Running.congr (running : Running setup g) (global : g'.global = g.global)
    (allocators : g'.localAllocators = g.localAllocators) (memory : g'.memory = g.memory)
    (headers : g'.block = g.block) (locals : g'.localAllocator = g.localAllocator)
    (history : g'.history = g.history) : Running setup g' := by
  rcases running with stale | stock
  · exact Or.inl ((congrArg History.staleNext history).trans stale)
  · exact Or.inr (stock.congr (by rw [global]) allocators memory headers (history ▸ .refl _)
      (by rw [global]) ⟨by rw [global], by rw [global]⟩
      fun x hx => ⟨hx, .of_local (by rw [locals])⟩)

/-- The step lemma. -/
theorem Running.smallCall (call : SmallCall) (running : Running setup g)
    (registered : self ∈ setup.registered) (success : call.run setup.env self g = .ok g') :
    Running setup g' := by
  cases call with
  | allocate size atomic small =>
    obtain ⟨⟨pointer, after⟩, allocated, done⟩ := bind_eq_ok.mp success
    exact Except.ok.inj done ▸ running.allocateSmall registered small allocated
  | collect => exact Kept.collectOnce running success
  | reset => exact running.reset success
  | write address value => exact running.clientStore success
  | roots script =>
    rw [← Except.ok.inj success]
    exact running.congr rfl rfl rfl rfl rfl rfl

/-- The run lemma. -/
theorem Running.smallCalls (calls : List SmallCall) (running : Running setup g)
    (registered : self ∈ setup.registered)
    (success : calls.foldlM (SmallCall.run setup.env self) g = .ok g') : Running setup g' :=
  foldlM_keeps calls running
    (fun call _ _ _ running step => running.smallCall call registered step) success

/-- The object that a call returns is the newest live object, with room for the payload. -/
theorem Running.handsOut {size atomic pointer : Nat} (running : Running setup g)
    (registered : self ∈ setup.registered) (small : size ≤ largeObjectSize - sizeofObject)
    (success : LocalAllocator.allocateSmall setup.env (collectOnce setup.env) self size atomic g =
      .ok (pointer, g')) :
    ∃ new older, g'.history.live = new :: older ∧ pointer = Object.mutatorAddress new.object ∧
      size + sizeofObject ≤ new.size := by
  rw [LocalAllocator.allocateSmall] at success
  obtain ⟨-, -, rest⟩ := bind_eq_ok.mp success
  obtain ⟨word, enough, most⟩ := small_rsize small
  generalize roundToNextMultiple (sizeAdd size sizeofObject) wordSize = rsize at *
  obtain ⟨before, object, bumped, -, -, -, rfl, rfl⟩ := allocateSmallLoop_handsOut
    (Running.allocationKeeps registered word (by omega) most) _ running rest
  exact ⟨_, _, rfl, rfl, enough⟩

end Runs

/-- A small object that a call returned in state `g`, and every older object that is still
live: handed out before, and marked by every collection since. -/
def ReturnedApart (env : Env) (self : Nat) (g : Gc) : Prop :=
  ∀ (size atomic pointer : Nat) (g' : Gc), size ≤ largeObjectSize - sizeofObject →
    LocalAllocator.allocateSmall env (collectOnce env) self size atomic g = .ok (pointer, g') →
      g'.history.staleNext = false →
        ∃ new older, g'.history.live = new :: older ∧ pointer = Object.mutatorAddress new.object ∧
          size + sizeofObject ≤ new.size ∧ ∀ old ∈ older, ShareNothing new old

section Safety
variable {env : Env} {smallMap largeMap memoryLimit freeSpaceDivisor initialSize self : Nat}
  {memory : Memory} {contents : LocalAllocator} {start g : Gc}

/-- In every run whose `initCursor` never takes a free block while `next` is set, live
objects share no byte, and neither does the next object that is returned. -/
theorem live_objects_share_nothing (mapped : Mapped smallMap largeMap memoryLimit initialSize)
    (init : Source.init env smallMap largeMap memoryLimit freeSpaceDivisor initialSize memory self
      contents = .ok start) (calls : List SmallCall)
    (run : calls.foldlM (SmallCall.run env self) start = .ok g)
    (clear : g.history.staleNext = false) :
    g.history.live.Pairwise ShareNothing ∧ ReturnedApart env self g := by
  have registered : self ∈ (⟨env, smallMap, largeMap, [self]⟩ : Setup).registered :=
    List.mem_singleton_self self
  have running := Running.smallCalls calls (init_running mapped init) registered run
  have apart : ∀ g : Gc, Running ⟨env, smallMap, largeMap, [self]⟩ g → g.history.staleNext = false →
      g.history.live.Pairwise ShareNothing := by
    rintro g (stale | ⟨free, recyclable, -, stocked⟩) clear
    · rw [stale] at clear
      cases clear
    · exact stocked.shape.apart
  refine ⟨apart g running clear, fun size atomic pointer g' small success clear' => ?_⟩
  obtain ⟨new, older, live, returned, enough⟩ := running.handsOut registered small success
  have whole := apart g' (running.allocateSmall registered small success) clear'
  rw [live] at whole
  exact ⟨new, older, live, returned, enough, (List.pairwise_cons.mp whole).1⟩

/-- A heap of two blocks for one thread. -/
def twoBlockHeap : Result Gc :=
  Source.init sampleEnv 0x100000 0x10000000 (2 ^ 26) 3 65536 ⟨fun _ => 0⟩ 16 ⟨0, 0, 0, 0, 0, 0, 0⟩

theorem twoBlockHeap_mapped : Mapped 0x100000 0x10000000 (2 ^ 26) 65536 :=
  ⟨by decide, by decide, by decide, by decide⟩

instance : DecidableRel ShareNothing := fun _ _ => inferInstanceAs (Decidable (_ ∨ _))

/-- Two objects are kept over a collection. -/
def keepTwo : List SmallCall :=
  [.allocate 8176 0 (by decide), .allocate 240 0 (by decide), .roots [[(32, 40)]],
    .write 32 0x102110, .collect, .allocate 8176 0 (by decide)]

theorem keepTwo_share_nothing : ∃ start g, twoBlockHeap = .ok start ∧
    keepTwo.foldlM (SmallCall.run sampleEnv 16) start = .ok g ∧ g.history.staleNext = false ∧
    g.history.live.Pairwise ShareNothing ∧ ReturnedApart sampleEnv 16 g := by
  have ran : ((twoBlockHeap >>= fun start => keepTwo.foldlM (SmallCall.run sampleEnv 16) start).map
      fun g => g.history.staleNext) = .ok false := by decide +kernel
  obtain ⟨g, run, clear⟩ := map_eq_ok ran
  obtain ⟨start, init, calls⟩ := bind_eq_ok.mp run
  exact ⟨start, g, init, calls, clear,
    live_objects_share_nothing twoBlockHeap_mapped init keepTwo calls clear⟩

/-- The second collection keeps nothing but takes a free block while `next` is set; five
allocations later the cursor runs through a hole of the old block into a live object. -/
def staleHole : List SmallCall :=
  keepTwo.take 5 ++ [.collect, .allocate 8176 0 (by decide), .allocate 8176 0 (by decide),
    .allocate 8176 0 (by decide), .allocate 7920 0 (by decide), .allocate 8 0 (by decide)]

theorem stale_hole_shares_bytes : ∃ start g, twoBlockHeap = .ok start ∧
    staleHole.foldlM (SmallCall.run sampleEnv 16) start = .ok g ∧
    ¬ g.history.live.Pairwise ShareNothing := by
  have ran : ((twoBlockHeap >>= fun start => staleHole.foldlM (SmallCall.run sampleEnv 16) start).map
      fun g => decide (g.history.live.Pairwise ShareNothing)) = .ok false := by decide +kernel
  obtain ⟨g, run, shared⟩ := map_eq_ok ran
  obtain ⟨start, init, calls⟩ := bind_eq_ok.mp run
  exact ⟨start, g, init, calls, of_decide_eq_false shared⟩

end Safety

end ImmixGc.Guarantees
