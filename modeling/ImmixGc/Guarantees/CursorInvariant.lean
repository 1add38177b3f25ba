import ImmixGc.Guarantees.HeapRuns

/-!
# The cursors of the local allocators

In every state of a run that takes no free block while `next` is set, the interval and the
holes of every registered allocator lie in its block, in order. `Line_update` is then only
called on objects of the block it is given.
-/
namespace ImmixGc.Guarantees
open Source Foundation

/-- The states in which a call of `GC_LocalAllocator_allocateSmall` from `g` looks for room. -/
inductive During (collect : Gc → Result Gc) (self : Nat) (g : Gc) : Gc → Prop where
  | enter : During collect self g g
  | hole {h : Gc} (during : During collect self g h) (some : (h.localAllocator self).next ≠ null) :
      During collect self g (LocalAllocator.findNextHole self h).2
  | block {h h' : Gc} (during : During collect self g h)
      (success : LocalAllocator.initCursor collect self h = .ok h') : During collect self g h'
  | overflow {h h' : Gc} (during : During collect self g h)
      (success : LocalAllocator.initOverflowCursor collect self h = .ok h') : During collect self g h'

section Stops
variable {collect : Gc → Result Gc} {self size rsize atomic : Nat} {g h : Gc} {stop : Stop}

end Stops

/-! ## Cursors of reachable states -/

section Cursors
variable {setup : Setup} {g h : Gc} {x : Slot} {self rsize : Nat}

theorem Whole.during (whole : Whole setup g) (registered : self ∈ setup.registered)
    (during : During (Source.collectOnce setup.env) self g h) : Whole setup h := by
  induction during with
  | enter => exact whole
  | hole _ some ih => exact ih.nextHole registered some
  | block _ success ih => exact ih.initCursor success
  | overflow _ success ih => exact ih.initOverflowCursor success

end Cursors

section Runs
variable {env : Env} {smallMap largeMap memoryLimit freeSpaceDivisor initialSize self : Nat}
  {memory : Memory} {contents : LocalAllocator} {start g : Gc}

end Runs

end ImmixGc.Guarantees
