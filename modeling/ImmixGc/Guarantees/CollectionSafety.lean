import ImmixGc.Guarantees.HeapObjects
import Mathlib.Data.List.Pairwise

/-!
# A collection keeps what the client can reach

From every state of a run, `GC_collect_once` keeps the objects that the words of the registered
regions lead to, through the payloads of objects without the atomic flag, and leaves the bytes
of every object it keeps alone. What the finalizers it calls write is the one exception.
-/
namespace ImmixGc.Guarantees
open Source Foundation

/-- What the client can reach from its root regions. The words of a region inside the small heap
do not count as roots: marking writes headers there. -/
inductive Reachable (g : Gc) (regions : List Region) : Allocation → Prop where
  | root {a : Allocation} {region : Region} {word : Nat} (live : a ∈ g.history.live)
      (isRoot : region ∈ regions) (inside : word ∈ regionWords region)
      (outside : g.global.inSmallHeap word = false) (points : PointsInto (g.memory.load word) a) :
      Reachable g regions a
  | field {a b : Allocation} {word : Nat} (reached : Reachable g regions b)
      (plain : g.objectAtomic b.object = 0) (live : a ∈ g.history.live)
      (inside : word ∈ regionWords (Object.mutatorAddress b.object, b.object + b.size))
      (points : PointsInto (g.memory.load word) a) : Reachable g regions a

theorem Reachable.live {g : Gc} {regions : List Region} {a : Allocation}
    (reachable : Reachable g regions a) : a ∈ g.history.live := by
  cases reachable with
  | root live => exact live
  | field _ _ live => exact live

/-- A finalizer that was called between the two states writes this word. -/
def FinalizerWrites (env : Env) (g g' : Gc) (word : Nat) : Prop :=
  ∃ call ∈ finalizerCalls g g', ∃ value,
    Action.store word value ∈ env.finalizer call.2 (Object.mutatorAddress call.1)

namespace FinalizerWrites
variable {env : Env} {g g' g'' : Gc} {word : Nat}

theorem later (writes : FinalizerWrites env g g' word) (first : FlagsUp g.history g'.history)
    (second : FlagsUp g'.history g''.history) : FinalizerWrites env g g'' word := by
  obtain ⟨call, member, value, store⟩ := writes
  exact ⟨call, (finalizerCalls_until first second).subset member, value, store⟩

theorem earlier (writes : FinalizerWrites env g' g'' word) (first : FlagsUp g.history g'.history) :
    FinalizerWrites env g g'' word := by
  obtain ⟨call, member, value, store⟩ := writes
  exact ⟨call, (finalizerCalls_since first g'').subset member, value, store⟩

end FinalizerWrites

/-- What holds of an object over a step: its header says what it said, and its payload is what
it was, but for words in `written`. -/
structure Preserved (written : Nat → Prop) (g g' : Gc) (a : Allocation) : Prop where
  size : g'.objectSize a.object = g.objectSize a.object
  atomic : g'.objectAtomic a.object = g.objectAtomic a.object
  payload : ∀ word, PointsInto word a → ¬ written word → g'.memory.load word = g.memory.load word

/-- An object consists of the header its heap keeps for it and of its payload. -/
theorem Preserved.of_parts {written : Nat → Prop} {g g' : Gc} {a : Allocation}
    (heap : g'.global.inLargeHeap a.object = g.global.inLargeHeap a.object)
    (small : g.global.inLargeHeap a.object = false → ∀ word, a.object ≤ word →
      word < a.object + sizeofObject → g'.memory.load word = g.memory.load word)
    (large : g.global.inLargeHeap a.object = true →
      (g'.global.largeChunkList.chunk (a.object - chunkHeaderSize)).object =
        (g.global.largeChunkList.chunk (a.object - chunkHeaderSize)).object)
    (payload : ∀ word, PointsInto word a → ¬ written word →
      g'.memory.load word = g.memory.load word) : Preserved written g g' a := by
  refine ⟨?_, ?_, payload⟩
  · rw [Gc.objectSize, Gc.objectSize, heap]
    split
    · next inside => rw [large inside]
    · next outside =>
      exact small (Bool.eq_false_iff.mpr outside) _ (Nat.le_refl _) (by simp [sizeofObject])
  · rw [Gc.objectAtomic, Gc.objectAtomic, heap]
    split
    · next inside => rw [large inside]
    · next outside =>
      rw [Object.atomic, Object.atomic, small (Bool.eq_false_iff.mpr outside) (a.object + 8)
        (Nat.le_add_right _ _) (by simp [sizeofObject])]

theorem Preserved.trans {written : Nat → Prop} {g g' g'' : Gc} {a : Allocation}
    (first : Preserved written g g' a) (second : Preserved written g' g'' a) :
    Preserved written g g'' a :=
  ⟨second.size.trans first.size, second.atomic.trans first.atomic, fun word points away =>
    (second.payload word points away).trans (first.payload word points away)⟩

/-! ## Unmarking -/

/-- `Collector_unmarkLargeObjects` returns when the list is not too long, with all marks clear. -/
theorem unmarkLargeFrom_ok {list list' : ChunkList} (chunks : List Nat) (fuel chunk : Nat)
    (linked : Links (fun c => (list.chunk c).next) chunk chunks null) (away : null ∉ chunks)
    (success : Collector.unmarkLargeFrom fuel chunk list = .ok list') :
    chunks.length < fuel ∧ (∀ c ∈ chunks, (list'.chunk c).isMarked = false) ∧
      (∀ c, (list.chunk c).isMarked = false → (list'.chunk c).isMarked = false) ∧
      ∀ c, ∃ marked, list'.chunk c = (list.chunk c).setMarked marked := by
  induction chunks generalizing fuel chunk list with
  | nil =>
    cases fuel with
    | zero => cases success
    | succ fuel =>
      rw [Collector.unmarkLargeFrom, if_pos (Links.nil_iff.mp linked)] at success
      obtain rfl := Except.ok.inj success
      exact ⟨Nat.succ_pos _, fun c member => absurd member List.not_mem_nil, fun _ clear => clear,
        fun c => ⟨(list.chunk c).object.marked, rfl⟩⟩
  | cons c rest ih =>
    cases fuel with
    | zero => cases success
    | succ fuel =>
      obtain ⟨rfl, next⟩ := linked
      have some : chunk ≠ null := fun none => away (none ▸ List.mem_cons_self)
      rw [Collector.unmarkLargeFrom, if_neg some] at success
      have unmarked : ∀ x, store list.chunk chunk (list.chunk chunk).unmark x =
          if x = chunk then (list.chunk chunk).unmark else list.chunk x := fun x => store_apply _ _ _ _
      have linked' : Links (fun x => (store list.chunk chunk (list.chunk chunk).unmark x).next)
          (list.chunk chunk).next rest null := by
        refine next.congr fun x _ => ?_
        rw [unmarked]
        split
        · next here => rw [here]; rfl
        · rfl
      obtain ⟨enough, cleared, kept, same⟩ := ih fuel (list.chunk chunk).next linked'
        (fun member => away (List.mem_cons_of_mem _ member)) success
      dsimp only at kept same
      have clear : (list'.chunk chunk).isMarked = false := by
        refine kept chunk ?_
        rw [unmarked, if_pos rfl]
        rfl
      refine ⟨Nat.succ_lt_succ enough, fun x member => ?_, fun x old => ?_, fun x => ?_⟩
      · rcases List.mem_cons.mp member with rfl | later
        · exact clear
        · exact cleared x later
      · by_cases here : x = chunk
        · exact here ▸ clear
        · refine kept x ?_
          rw [unmarked, if_neg here]
          exact old
      · obtain ⟨marked, eq⟩ := same x
        rw [unmarked] at eq
        split at eq
        · next here => exact ⟨marked, by rw [eq, here]; rfl⟩
        · exact ⟨marked, eq⟩

/-- `Collector_callCollectCallback` registers the next regions of the client. -/
theorem callCollectCallback_ok {g g' : Gc} (success : Collector.callCollectCallback g = .ok g') :
    g' = { g with
      rootScript := g.rootScript.tail
      collector := { g.collector with
        roots := (g.rootScript.headD []).reverse ++ g.collector.roots } } := by
  rw [Collector.callCollectCallback] at success
  split at success
  · next none =>
    obtain rfl := Except.ok.inj success
    simp only [none, List.tail_nil, List.headD_nil, List.reverse_nil, List.nil_append]
    rw [← none]
  · next regions rest some =>
    rw [addRoots_eq success, some]
    rfl

section Marks
variable {setup : Setup} {g g' g'' unmarked : Gc} {layout : Nat → Layout} {extent : Nat → Nat}
  {chunks : List Nat}

theorem Laid.congr (laid : Laid g layout extent) (blocks : g'.global.blocks = g.global.blocks)
    (memory : g'.memory = g.memory) (headers : g'.block = g.block) (history : g'.history = g.history) :
    Laid g' layout extent := by
  intro b member
  rw [blocks] at member
  exact (laid b member).frame (by rw [history]; exact id) (fun a _ _ => by rw [memory])
    (by rw [headers]) (by rw [history]; exact fun a inLive _ => inLive)

/-- `g'` differs from `g` at most in mark bytes and in what is no object. -/
structure MarksOnly (layout : Nat → Layout) (g g' : Gc) : Prop where
  other : ∀ a, (∀ o ∈ smallObjects g layout, a ≠ o + 8) → g'.memory.load a = g.memory.load a
  word : ∀ o ∈ smallObjects g layout,
    g'.memory.load (o + 8) / 256 = g.memory.load (o + 8) / 256
  chunk : ∀ c, ∃ value, g'.global.largeChunkList.chunk c =
    (g.global.largeChunkList.chunk c).setMarked value
  global : g'.global = { g.global with largeChunkList := g'.global.largeChunkList }

namespace MarksOnly

theorem smallObjects_eq (only : MarksOnly layout g g') :
    smallObjects g' layout = smallObjects g layout := by
  rw [smallObjects, only.global]
  rfl

theorem inLargeHeap_eq (only : MarksOnly layout g g') (a : Nat) :
    g'.global.inLargeHeap a = g.global.inLargeHeap a := by
  rw [only.global]
  rfl

theorem trans (first : MarksOnly layout g g') (second : MarksOnly layout g' g'') :
    MarksOnly layout g g'' := by
  have same := first.smallObjects_eq
  refine ⟨fun a away => ?_, fun o member => ?_, fun c => ?_, ?_⟩
  · exact (second.other a (same ▸ away)).trans (first.other a away)
  · exact (second.word o (same ▸ member)).trans (first.word o member)
  · obtain ⟨value, eq⟩ := first.chunk c
    obtain ⟨value', eq'⟩ := second.chunk c
    exact ⟨value', by rw [eq', eq]; rfl⟩
  · rw [second.global, first.global]

/-- What marking reads of a small object. -/
theorem small (only : MarksOnly layout g g') (heap : ObjectHeap g layout extent chunks) {o : Nat}
    (member : o ∈ smallObjects g layout) :
    Object.size g'.memory o = Object.size g.memory o ∧
      Object.atomic g'.memory o = Object.atomic g.memory o := by
  obtain ⟨b, hb, i, inLine⟩ := heap.mem_smallObjects.mp member
  refine ⟨only.other o fun x other => (heap.ne_markWord hb other).1 o ⟨i, inLine⟩, ?_⟩
  rw [Object.atomic, Object.atomic, only.word o member]

theorem chunk_same (only : MarksOnly layout g g') (c : Nat) :
    (g'.global.largeChunkList.chunk c).object.size = (g.global.largeChunkList.chunk c).object.size ∧
    (g'.global.largeChunkList.chunk c).object.atomic =
      (g.global.largeChunkList.chunk c).object.atomic ∧
    (g'.global.largeChunkList.chunk c).isAllocated =
      (g.global.largeChunkList.chunk c).isAllocated := by
  obtain ⟨value, eq⟩ := only.chunk c
  rw [eq]
  exact ⟨rfl, rfl, rfl⟩

theorem objectSize (only : MarksOnly layout g g') (heap : ObjectHeap g layout extent chunks) {o : Nat}
    (member : o ∈ objects g layout chunks) :
    g'.objectSize o = g.objectSize o ∧ g'.objectAtomic o = g.objectAtomic o := by
  rw [Gc.objectSize, Gc.objectSize, Gc.objectAtomic, Gc.objectAtomic, only.inLargeHeap_eq]
  rcases List.mem_append.mp member with small | chunk
  · rw [heap.small_not_large small]
    exact only.small heap small
  · obtain ⟨c, inList, -, rfl⟩ := ObjectHeap.mem_largeObjects.mp chunk
    rw [heap.chunk_large inList, if_pos rfl, if_pos rfl, if_pos rfl, if_pos rfl, Nat.add_sub_cancel]
    exact ⟨(only.chunk_same c).1, (only.chunk_same c).2.1⟩

theorem allocated (only : MarksOnly layout g g') (heap : ObjectHeap g layout extent chunks) {o : Nat}
    (allocated : Allocated g layout extent chunks o) : Allocated g' layout extent chunks o := by
  rcases allocated with ⟨small, whole⟩ | chunk
  · refine Or.inl ⟨only.smallObjects_eq ▸ small, ?_⟩
    rw [(only.small heap small).1]
    exact whole
  · obtain ⟨c, inList, isAllocated, object⟩ := ObjectHeap.mem_largeObjects.mp chunk
    refine Or.inr (ObjectHeap.mem_largeObjects.mpr ⟨c, inList, ?_, object⟩)
    exact (only.chunk_same c).2.2.trans isAllocated

/-- Marks are in no payload. -/
theorem preserved (only : MarksOnly layout g g') (heap : ObjectHeap g layout extent chunks)
    {a : Allocation} (allocated : Allocated g layout extent chunks a.object)
    (sized : g.objectSize a.object = a.size) : Preserved (fun _ => False) g g' a := by
  obtain ⟨size, atomic⟩ := only.objectSize heap allocated.mem_objects
  refine ⟨size, atomic, fun word points _ => only.other word fun x member => ?_⟩
  exact heap.payload_ne_markWord allocated ((inPayload_iff_pointsInto sized).mpr points) member

end MarksOnly

theorem Simulates.marksOnly {s : Marker Nat Region Nat} (sim : Simulates g layout chunks g' s)
    (clear : MarksClear g layout chunks) : MarksOnly layout g g' := by
  refine ⟨sim.other, fun o member => ?_, fun c => ?_, ?_⟩
  · have low := clear.small o member
    rw [Object.marked] at low
    rw [sim.marks o member]
    split <;> omega
  · rw [sim.global]
    dsimp only
    split
    · exact ⟨1, rfl⟩
    · exact ⟨(g.global.largeChunkList.chunk c).object.marked, rfl⟩
  · rw [sim.global]

/-- The phases before marking. -/
theorem Laid.unmark {list : ChunkList} (laid : Laid g layout extent) (shape : HeapShape setup g)
    (large : LargeLive setup.env chunks g)
    (unmarking : Collector.unmarkLargeFrom setup.env.fuel
      (Collector.unmarkSmallObjects g).global.largeChunkList.first
      (Collector.unmarkSmallObjects g).global.largeChunkList = .ok list) :
    chunks.length < setup.env.fuel ∧
      ObjectHeap (Collector.withChunkList (Collector.unmarkSmallObjects g) list) layout extent chunks ∧
      MarksClear (Collector.withChunkList (Collector.unmarkSmallObjects g) list) layout chunks ∧
      MarksOnly layout g (Collector.withChunkList (Collector.unmarkSmallObjects g) list) := by
  have heap := laid.objectHeap shape.bounds large
  have unmarks := laid.unmarkSmallObjects
  generalize Collector.unmarkSmallObjects g = small at *
  rw [unmarks.global] at unmarking
  obtain ⟨enough, cleared, -, chunk⟩ := unmarkLargeFrom_ok chunks _ _ large.ok.heap.tiling.linked
    large.ok.heap.tiling.null_not_mem unmarking
  have only : MarksOnly layout g (Collector.withChunkList small list) := by
    refine ⟨fun a away => unmarks.other a fun b hb o walked => ?_, fun o member => ?_, chunk, ?_⟩
    · obtain ⟨i, inLine⟩ := walked
      exact away o (heap.mem_smallObjects.mpr ⟨b, hb, i, inLine⟩)
    · obtain ⟨b, hb, i, inLine⟩ := heap.mem_smallObjects.mp member
      exact unmarks.word b hb o ⟨i, inLine⟩
    · rw [Collector.withChunkList, unmarks.global]
  have same : space (Collector.withChunkList small list).global = space g.global := by
    rw [only.global]
    rfl
  have large' : LargeLive setup.env chunks (Collector.withChunkList small list) :=
    large.congr (.of_space same) (.unmarkLarge _ _ unmarking)
      (by rw [← unmarks.history]; exact .refl _) (Or.inr (by rw [only.global]))
  have laid' : Laid (Collector.withChunkList small list) layout extent :=
    unmarks.laid.congr rfl rfl rfl rfl
  refine ⟨enough, ?_, ⟨fun o member => ?_, cleared⟩, only⟩
  · exact laid'.objectHeap (shape.bounds.congr same) large'
  · rw [only.smallObjects_eq] at member
    obtain ⟨b, hb, i, inLine⟩ := heap.mem_smallObjects.mp member
    exact unmarks.clear b hb List.not_mem_nil o ⟨i, inLine⟩

/-- The words of a payload. -/
theorem mem_regionWords_payload {a : Allocation} (words : a.size % wordSize = 0) {word : Nat}
    (inside : word ∈ regionWords (Object.mutatorAddress a.object, a.object + a.size)) :
    PointsInto word a := by
  obtain ⟨i, bound, rfl⟩ := List.mem_map.mp inside
  have bound := List.mem_range.mp bound
  simp only [PointsInto, Object.mutatorAddress, wordSize, sizeofObject] at *
  omega

/-- What the client can reach, the marker can. -/
theorem Reachable.wordGraph {regions roots : List Region} {a : Allocation}
    (reachable : Reachable g regions a) (laid : Laid g layout extent) (shape : HeapShape setup g)
    (large : LargeLive setup.env chunks g) (only : MarksOnly layout g unmarked)
    (placed : ∀ a ∈ g.history.live, a.size % wordSize = 0)
    (rooted : ∀ region ∈ regions, region ∈ roots) :
    (wordGraph unmarked layout extent chunks).Reachable roots a.object := by
  have heap := laid.objectHeap shape.bounds large
  have target : ∀ a ∈ g.history.live, ∀ word, unmarked.memory.load word = g.memory.load word →
      PointsInto (g.memory.load word) a →
        (Guarantees.wordGraph unmarked layout extent chunks).reaches word a.object := by
    intro a member word same points
    obtain ⟨allocated, sized⟩ := laid.live shape large member
    refine ⟨only.allocated heap allocated, ?_⟩
    rw [same, InPayload, (only.objectSize heap allocated.mem_objects).1, sized]
    exact points
  induction reachable with
  | @root a region word live isRoot inside outside points =>
    refine .root (rooted region isRoot) inside (target a live word ?_ points)
    refine only.other word fun o member => ?_
    rintro rfl
    obtain ⟨b, hb, i, inLine⟩ := heap.mem_smallObjects.mp member
    obtain ⟨-, -, enough, -, low, high, first, last⟩ := heap.place hb inLine
    rw [GlobalAllocator.inSmallHeap, Bool.and_eq_false_iff, decide_eq_false_iff_not,
      decide_eq_false_iff_not] at outside
    simp only [sizeofObject, Block.start] at *
    omega
  | @field a b word reached plain live inside points ih =>
    obtain ⟨allocated, sized⟩ := laid.live shape large reached.live
    obtain ⟨size, atomic⟩ := only.objectSize heap allocated.mem_objects
    refine .follow ih (?_ : _ = some (Object.mutatorAddress b.object, b.object + b.size)) inside
      (target a live word ?_ points)
    · rw [Guarantees.wordGraph]
      dsimp only
      rw [if_pos (atomic.trans plain), payload, size, sized]
    · refine only.other word fun x member => ?_
      exact heap.payload_ne_markWord allocated ((inPayload_iff_pointsInto sized).mpr
        (mem_regionWords_payload (placed b reached.live) inside)) member

end Marks

/-! ## Finalizers -/

section Finalizers
variable {setup : Setup} {g g' : Gc}

instance : Std.Symm ShareNothing := ⟨fun _ _ apart => Or.symm apart⟩

/-- A write of the client misses the headers of live objects in blocks. -/
theorem HeapShape.store_header (shape : HeapShape setup g) {address value : Nat}
    (success : g.clientStore address value = .ok g') {a : Allocation} (member : a ∈ g.history.live)
    (home : Block.from a.object ∈ g.global.blocks) {layout : Layout} {extent : Nat → Nat}
    (intact : Intact g (Block.from a.object) layout extent) {word : Nat} (low : a.object ≤ word)
    (high : word < a.object + sizeofObject) : g'.memory.load word = g.memory.load word := by
  obtain ⟨rfl, place⟩ := shape.owned_cases success
  have within := intact.payload_within member rfl
  obtain ⟨walked, sized, -⟩ := intact.live _ (mem_liveIn.mpr ⟨a, member, rfl, rfl⟩)
  have enough := (intact.ok.shape a.object walked).2.1
  dsimp only at sized
  rw [sized] at enough
  refine store_other _ _ _ _ ?_
  rintro rfl
  rcases place with outside | ⟨b, owned, -, inside⟩
  · have := outside _ home
    omega
  · by_cases same : a = b
    · subst same
      omega
    · have apart := shape.apart.forall member owned same
      simp only [ShareNothing, sizeofObject] at *
      omega

/-- What finalizers that only write leave alone. -/
structure Finalized (setup : Setup) (g g' : Gc) : Prop where
  marking : Marking setup g'
  flags : FlagsUp g.history g'.history
  live : g'.history.live = g.history.live
  chunks : g'.global.largeChunkList = g.global.largeChunkList
  space : space g'.global = space g.global
  header : ∀ a ∈ g.history.live, Block.from a.object ∈ g.global.blocks → ∀ word, a.object ≤ word →
    word < a.object + sizeofObject → g'.memory.load word = g.memory.load word
  words : ∀ word, ¬ FinalizerWrites setup.env g g' word → g'.memory.load word = g.memory.load word

namespace Finalized

theorem refl (marking : Marking setup g) : Finalized setup g g :=
  ⟨marking, .refl _, rfl, rfl, rfl, fun _ _ _ _ _ _ => rfl, fun _ _ => rfl⟩

theorem congr {g'' : Gc} (finalized : Finalized setup g g') (marking : Marking setup g'')
    (flags : FlagsUp g'.history g''.history) (live : g''.history.live = g'.history.live)
    (chunks : g''.global.largeChunkList = g'.global.largeChunkList)
    (space : Guarantees.space g''.global = Guarantees.space g'.global)
    (memory : g''.memory = g'.memory) : Finalized setup g g'' :=
  ⟨marking, finalized.flags.trans flags, live.trans finalized.live, chunks.trans finalized.chunks,
    space.trans finalized.space, by rw [memory]; exact finalized.header, fun word away => by
      rw [memory]
      exact finalized.words word fun writes => away (writes.later finalized.flags flags)⟩

theorem clientStore {before after : Gc} (finalized : Finalized setup g before) {address value : Nat}
    (written : FinalizerWrites setup.env g before address)
    (success : before.clientStore address value = .ok after) : Finalized setup g after := by
  obtain ⟨marking, flags, live, chunks, space, header, words⟩ := finalized
  obtain ⟨stored, -⟩ := marking.shape.owned_cases success
  have kept : after.history = before.history ∧ after.global = before.global := by
    rw [stored]
    exact ⟨rfl, rfl⟩
  refine ⟨marking.clientStore success, flags.congr kept.1, by rw [kept.1, live],
    by rw [kept.2, chunks], by rw [kept.2, space], fun a member home word low high => ?_,
    fun word away => ?_⟩
  · have home' : Block.from a.object ∈ before.global.blocks := by
      rw [blocks_congr space]
      exact home
    obtain ⟨layout, extent, intact, -⟩ := marking.scanned _ home'
    exact (marking.shape.store_header success (live ▸ member) home' intact low high).trans
      (header a member home word low high)
  · rw [FinalizerWrites, finalizerCalls, kept.1] at away
    rw [← words word away, stored]
    exact store_other _ _ _ _ (fun same => away (same ▸ written))

theorem callFinalizer (stores : StoresOnly setup.env) {before after : Gc} {callback object : Nat}
    (finalized : Finalized setup g before)
    (success : Collector.callFinalizer setup.env callback object before = .ok after) :
    Finalized setup g after := by
  rw [Collector.callFinalizer] at success
  have called : Finalized setup g { before with history := before.history.call object callback } :=
    finalized.congr (finalized.marking.congr rfl rfl rfl rfl ⟨rfl, rfl⟩ rfl) (.call _ _ _) rfl rfl rfl
      rfl
  refine (@foldlM_keeps _ _ _ (fun last => Finalized setup g last ∧
      FlagsAbove (before.history.call object callback) last) _ _ _ ⟨called, .refl _⟩
    (fun action member first last holds ran => ?_) success).1
  obtain ⟨kept, up⟩ := holds
  obtain ⟨address, value, rfl⟩ := stores _ _ _ member
  have own : FinalizerWrites setup.env before { before with
      history := before.history.call object callback } address :=
    ⟨(object, callback), by simp [finalizerCalls, History.call], value, member⟩
  have writes := (own.later (.call _ _ _) up).earlier finalized.flags
  exact ⟨kept.clientStore writes ran, up.clientStore ran⟩

theorem finalizeObjects (marking : Marking setup g)
    (success : Collector.finalizeObjects setup.env g = .ok g') : Finalized setup g g' := by
  rcases marking.shape.finalizers with stores | empty
  · refine finalizeObjects_keeps (fun h finalizers kept => ?_)
      (fun _ _ _ _ kept called => kept.callFinalizer stores called) (refl marking) success
    obtain ⟨⟨bounds, allocators, beyond, homes, apart, -⟩, scanned⟩ := kept.marking
    refine kept.congr ⟨⟨bounds.congr rfl, allocators, beyond, homes, apart, Or.inl stores⟩,
      fun b member => ?_⟩ (.refl _) rfl rfl rfl rfl
    exact (scanned b member).frame id (fun _ _ _ => rfl) rfl fun _ member _ => member
  · rw [finalizeObjects_empty setup.env empty] at success
    exact Except.ok.inj success ▸ refl marking

/-- Marks and headers of live objects stay what they were. -/
theorem preserved (finalized : Finalized setup g g') (shape : HeapShape setup g) {a : Allocation}
    (member : a ∈ g.history.live) :
    Preserved (FinalizerWrites setup.env g g') g g' a ∧ g'.isMarked a.object = g.isMarked a.object := by
  obtain ⟨-, -, live, chunks, space, header, words⟩ := finalized
  have inLarge : g'.global.inLargeHeap a.object = g.global.inLargeHeap a.object := by
    rw [GlobalAllocator.inLargeHeap, GlobalAllocator.inLargeHeap]
    simp only [Guarantees.space, Space.mk.injEq] at space
    rw [space.2.2.2.1, space.2.2.2.2.1]
  rcases shape.homes a member with home | ⟨inside, -⟩
  · have small := shape.bounds.not_inLarge home
    have first := header a member home a.object (Nat.le_refl _) (by simp only [sizeofObject]; omega)
    have second := header a member home (a.object + 8) (by omega)
      (by simp only [sizeofObject]; omega)
    refine ⟨⟨?_, ?_, fun word _ away => words word away⟩, ?_⟩
    · rw [Gc.objectSize, Gc.objectSize, inLarge, small]
      exact first
    · rw [Gc.objectAtomic, Gc.objectAtomic, inLarge, small, Object.atomic, Object.atomic, second]
      rfl
    · rw [Gc.isMarked, Gc.isMarked, inLarge, small]
      exact Object.isMarked_congr second
  · refine ⟨⟨?_, ?_, fun word _ away => words word away⟩, ?_⟩
    · rw [Gc.objectSize, Gc.objectSize, inLarge, inside, chunks]
      rfl
    · rw [Gc.objectAtomic, Gc.objectAtomic, inLarge, inside, chunks]
      rfl
    · rw [Gc.isMarked, Gc.isMarked, inLarge, inside, chunks]
      rfl

end Finalized
end Finalizers

/-! ## Sweeping -/

section Sweep
variable {setup : Setup} {g g' : Gc} {chunks : List Nat} {written : Nat → Prop}

/-- Only the heaps' bounds, the chunks and the memory matter to an object. -/
theorem Preserved.of_same {a : Allocation} (memory : g'.memory = g.memory)
    (chunks : g'.global.largeChunkList = g.global.largeChunkList)
    (bounds : g'.global.largeHeapStart = g.global.largeHeapStart ∧
      g'.global.largeHeapStop = g.global.largeHeapStop) : Preserved written g g' a := by
  have inLarge : g'.global.inLargeHeap = g.global.inLargeHeap := by
    funext pointer
    rw [GlobalAllocator.inLargeHeap, GlobalAllocator.inLargeHeap, bounds.1, bounds.2]
  refine ⟨?_, ?_, fun word _ _ => by rw [memory]⟩
  · rw [Gc.objectSize, Gc.objectSize, inLarge, chunks, memory]
  · rw [Gc.objectAtomic, Gc.objectAtomic, inLarge, chunks, memory]

/-- `recycleBlocks` writes no byte of a marked object. -/
theorem Marking.sweep_loads (marking : Marking setup g) {a : Allocation} (member : a ∈ g.history.live)
    (isMarked : g.isMarked a.object = true) {word : Nat} (low : a.object ≤ word)
    (high : word < a.object + a.size) :
    (GlobalAllocator.recycleBlocks (Collector.noteSweep g)).memory.load word = g.memory.load word := by
  have bounds := marking.shape.bounds
  have swept := recycleBlocks_spec (Collector.noteSweep g) bounds.smallStart.1
  generalize GlobalAllocator.recycleBlocks (Collector.noteSweep g) = after at *
  rcases marking.shape.homes a member with home | large
  · obtain ⟨layout, extent, intact, marks⟩ := marking.scanned _ home
    have within := intact.payload_within member rfl
    rw [marking.shape.isMarked_eq home within.1] at isMarked
    obtain ⟨⟨i, inLine⟩, sized, -⟩ := intact.live _ (mem_liveIn.mpr ⟨a, member, rfl, rfl⟩)
    dsimp only at inLine sized
    have place := intact.ok.in_line inLine
    have guarded := marks.guarded i a.object inLine isMarked
    rw [sized] at guarded
    have avoids := guarded.avoids (by omega) place.2
    obtain ⟨holes, recycled⟩ := swept.kept _ home (marks.block _ ⟨i, inLine⟩ isMarked)
    refine recycled.frame word (by omega) (by omega) fun hole inHoles => ?_
    obtain ⟨lines, -⟩ := recycled.lines hole inHoles
    have next := line_le (Block.from a.object) (show hole.1 + 1 ≤ hole.2 from lines.some)
    rw [← line_succ, lineSize] at next
    rcases lines.outside (guarded i (Or.inl rfl)) (by omega) place.2 avoids with before | behind <;> omega
  · refine swept.loads word fun b hb _ => ?_
    have apart := large.apart bounds hb
    simp only [Block.start] at *
    omega

/-- A marked object over a sweep. -/
theorem Marking.sweep_preserved (marking : Marking setup g) (large : LargeLive setup.env chunks g)
    (fits : (Collector.noteSweep g).history.shortLimit = false) {list : ChunkList}
    (success : ChunkList.sweep setup.env.fuel
      (GlobalAllocator.recycleBlocks (Collector.noteSweep g)).global.largeChunkList = .ok list)
    {a : Allocation} (member : a ∈ g.history.live) (isMarked : g.isMarked a.object = true) :
    Preserved written g (Collector.withChunkList
      (GlobalAllocator.recycleBlocks (Collector.noteSweep g)) list) a := by
  have loads : ∀ word, a.object ≤ word → word < a.object + a.size → _ =
      g.memory.load word := fun word => marking.sweep_loads member isMarked
  obtain ⟨memory, block, free, recyclable, recycled⟩ := recycleBlocks_frame (Collector.noteSweep g)
  rw [recycled] at success loads ⊢
  have inLarge : ∀ o, (Collector.withChunkList { Collector.noteSweep g with
      memory := memory
      block := block
      global := { (Collector.noteSweep g).global with
        freeList := free, recyclableList := recyclable } } list).global.inLargeHeap o =
      g.global.inLargeHeap o := fun _ => rfl
  have payload : ∀ word, PointsInto word a → ¬ written word → memory.load word = g.memory.load word :=
    fun word points _ => loads word (Nat.le_trans (Nat.le_add_right _ _) points.1) points.2
  rcases marking.shape.homes a member with home | ⟨inside, -⟩
  · have small := marking.shape.bounds.not_inLarge home
    obtain ⟨layout, extent, intact, -⟩ := marking.scanned _ home
    obtain ⟨walked, sized, -⟩ := intact.live _ (mem_liveIn.mpr ⟨a, member, rfl, rfl⟩)
    have enough := (intact.ok.shape a.object walked).2.1
    dsimp only at sized
    rw [sized, sizeofObject] at enough
    refine ⟨?_, ?_, payload⟩
    · rw [Gc.objectSize, Gc.objectSize, inLarge, small]
      exact loads a.object (Nat.le_refl _) (by omega)
    · rw [Gc.objectAtomic, Gc.objectAtomic, inLarge, small]
      have second := loads (a.object + 8) (by omega) (by omega)
      exact congrArg (fun value => value / 256 % 256) second
  · obtain ⟨chunks', -, swept⟩ :=
      large.ok.heap.tiling.sweep_ok (Bool.or_eq_false_iff.mp fits).2 success
    obtain ⟨chunk, inList, object, -⟩ := large.live a member inside
    rw [Gc.isMarked, if_pos inside, object, Nat.add_sub_cancel] at isMarked
    obtain ⟨-, kept⟩ := swept.kept chunk inList isMarked
    refine ⟨?_, ?_, payload⟩
    · rw [Gc.objectSize, Gc.objectSize, inLarge, inside, if_pos rfl, if_pos rfl, object,
        Nat.add_sub_cancel]
      exact (congrArg (fun header => header.object.size) kept :)
    · rw [Gc.objectAtomic, Gc.objectAtomic, inLarge, inside, if_pos rfl, if_pos rfl, object,
        Nat.add_sub_cancel]
      exact (congrArg (fun header => header.object.atomic) kept :)

end Sweep

/-! ## New blocks for the allocators -/

/-- The objects are the same, and consist of the same bytes and chunks. -/
structure SameObjects (g g' : Gc) : Prop where
  memory : g'.memory = g.memory
  chunks : g'.global.largeChunkList = g.global.largeChunkList
  bounds : g'.global.largeHeapStart = g.global.largeHeapStart ∧
    g'.global.largeHeapStop = g.global.largeHeapStop
  live : g'.history.live = g.history.live
  serials : g'.history.serials = g.history.serials

/-- What taking blocks leaves alone: the objects, their finalizers and the mark stack. -/
structure Untouched (g g' : Gc) : Prop extends SameObjects g g' where
  finalizers : g'.global.finalizers = g.global.finalizers
  registered : g'.history.registered = g.history.registered
  called : g'.history.called = g.history.called
  roots : g'.collector.roots = g.collector.roots

theorem SameObjects.refl (g : Gc) : SameObjects g g := ⟨rfl, rfl, ⟨rfl, rfl⟩, rfl, rfl⟩

theorem SameObjects.trans {g g' g'' : Gc} (first : SameObjects g g') (second : SameObjects g' g'') :
    SameObjects g g'' :=
  ⟨second.memory.trans first.memory, second.chunks.trans first.chunks,
    ⟨second.bounds.1.trans first.bounds.1, second.bounds.2.trans first.bounds.2⟩,
    second.live.trans first.live, second.serials.trans first.serials⟩

theorem SameObjects.preserved {g g' : Gc} (same : SameObjects g g') (written : Nat → Prop)
    (a : Allocation) : Preserved written g g' a := .of_same same.memory same.chunks same.bounds

namespace Untouched
variable {g g' g'' : Gc} {collect : Gc → Result Gc} {self item : Nat}

theorem refl (g : Gc) : Untouched g g := ⟨.refl g, rfl, rfl, rfl, rfl⟩

theorem trans (first : Untouched g g') (second : Untouched g' g'') : Untouched g g'' :=
  ⟨first.toSameObjects.trans second.toSameObjects, second.finalizers.trans first.finalizers,
    second.registered.trans first.registered, second.called.trans first.called,
    second.roots.trans first.roots⟩

theorem growSmall (success : GlobalAllocator.growSmall g = .ok g') : Untouched g g' := by
  obtain ⟨increment, count, size, -, -, -, rfl⟩ := growSmall_pushes success
  exact ⟨⟨rfl, rfl, ⟨rfl, rfl⟩, rfl, rfl⟩, rfl, rfl, rfl, rfl⟩

theorem shift (shift : GlobalAllocator.shiftRecyclable g = (item, g') ∨
    GlobalAllocator.shiftFree g = (item, g')) : Untouched g g' := by
  rcases shift with shift | shift
  · rw [← (Prod.mk.inj shift).2]
    exact ⟨⟨rfl, rfl, ⟨rfl, rfl⟩, rfl, rfl⟩, rfl, rfl, rfl, rfl⟩
  · rw [← (Prod.mk.inj shift).2]
    exact ⟨⟨rfl, rfl, ⟨rfl, rfl⟩, rfl, rfl⟩, rfl, rfl, rfl, rfl⟩

/-- What `initCursor` does with the block it took. -/
theorem placed (shift : Untouched g g')
    (placed : (g'.block item).isFree = true ∧ g'' = onFreeBlock self item g' ∨
      (g'.block item).isRecyclable = true ∧ ∃ hole,
        (g'.block item).firstFreeLine item = .ok hole ∧ g'' = onFirstHole self item hole g') :
    Untouched g g'' := by
  rcases placed with ⟨-, rfl⟩ | ⟨-, hole, -, rfl⟩
  · exact shift.trans ⟨⟨rfl, rfl, ⟨rfl, rfl⟩, rfl, rfl⟩, rfl, rfl, rfl, rfl⟩
  · exact shift.trans ⟨⟨rfl, rfl, ⟨rfl, rfl⟩, rfl, rfl⟩, rfl, rfl, rfl, rfl⟩

theorem onOverflowBlock (shift : Untouched g g') :
    Untouched g (Guarantees.onOverflowBlock self item g') :=
  shift.trans ⟨⟨rfl, rfl, ⟨rfl, rfl⟩, rfl, rfl⟩, rfl, rfl, rfl, rfl⟩

theorem feeds_noCollect (g : Gc) : Feeds (Untouched g) noCollect :=
  Guarantees.feeds_noCollect fun _ _ same grown => same.trans (.growSmall grown)

theorem reset (success : LocalAllocator.reset noCollect self g = .ok g') : Untouched g g' := by
  rw [LocalAllocator.reset] at success
  obtain ⟨middle, first, second⟩ := bind_eq_ok.mp success
  have kept : Untouched g middle := by
    obtain ⟨item, taken, took, cases⟩ := initCursor_cases first
    obtain ⟨-, before, same, shifted⟩ := nextBlock_taken (feeds_noCollect g) (refl g) took
    exact (same.trans (.shift shifted)).placed cases
  obtain ⟨item, taken, took, rfl⟩ := initOverflowCursor_ok second
  obtain ⟨-, before, same, shifted⟩ := nextFreeBlock_taken (feeds_noCollect g) kept took
  exact (same.trans (.shift (Or.inr shifted))).onOverflowBlock

theorem resets (todo : List Nat)
    (success : todo.foldlM (fun g self => LocalAllocator.reset noCollect self g) g = .ok g') :
    Untouched g g' :=
  foldlM_keeps todo (refl g) (fun _ _ _ _ same ran => same.trans (.reset ran)) success

end Untouched

/-! ## The whole collection -/

section Collections
variable {setup : Setup} {g g' : Gc} {regions : List Region} {a : Allocation}

theorem Reachable.collecting (reachable : Reachable g regions a) :
    Reachable (setCollecting g true) regions a := by
  induction reachable with
  | root live isRoot inside outside points => exact .root live isRoot inside outside points
  | field _ plain live inside points ih => exact .field ih plain live inside points

theorem history_markingKeeps (history : History) : MarkingKeeps fun g => g.history = history where
  chunks _ _ same _ := same
  roots _ _ same := same
  script _ _ same := same
  find g g' pointer same _ success := by
    rcases findAndMark_cases success with rfl | ⟨i, object, -, -, rfl⟩
    · exact same
    · rw [Collector.scanObject]
      split <;> exact same

/-- From unmarking to the end of the mark loop. -/
theorem HeapOk.marks (ok : HeapOk setup g) {list : ChunkList} {rooted marked : Gc}
    (unmarking : Collector.unmarkLargeFrom setup.env.fuel
      (Collector.unmarkSmallObjects g).global.largeChunkList.first
      (Collector.unmarkSmallObjects g).global.largeChunkList = .ok list)
    (rooting : Collector.callCollectCallback
      (Collector.withChunkList (Collector.unmarkSmallObjects g) list) = .ok rooted)
    (marking : Collector.mark setup.env setup.env.fuel rooted = .ok marked) :
    marked.history = g.history ∧
    (∀ a ∈ g.history.live, Preserved (fun _ => False) g marked a) ∧
    ∀ a, Reachable g (g.rootScript.headD []) a → marked.isMarked a.object = true := by
  obtain ⟨layout, extent, chunks, laid, large, heap⟩ := ok.objectHeap
  have shape := ok.small.shape
  obtain ⟨enough, heap', clear, only⟩ := laid.unmark shape large unmarking
  have frame : (Collector.withChunkList (Collector.unmarkSmallObjects g) list).history = g.history ∧
      (Collector.withChunkList (Collector.unmarkSmallObjects g) list).rootScript = g.rootScript := by
    obtain ⟨memory, block, same⟩ := unmarkSmallObjects_frame g
    rw [same]
    exact ⟨rfl, rfl⟩
  have history : marked.history = g.history := by
    have start := (history_markingKeeps g.history).callCollectCallback frame.1 rooting
    exact (history_markingKeeps g.history).mark _ start marking
  generalize Collector.withChunkList (Collector.unmarkSmallObjects g) list = unmarked at *
  have registered := callCollectCallback_ok rooting
  have sim : Simulates unmarked layout chunks rooted ⟨[], [], rooted.collector.roots⟩ := by
    rw [registered]
    exact { Simulates.start unmarked layout chunks with roots := rfl }
  obtain ⟨nodes, steps, sim'⟩ := Simulates.mark_ok clear heap' enough _ sim rfl marking
  have inv := (WordGraph.Tricolour.start _ _).steps steps
  have only' := only.trans (sim'.marksOnly clear)
  refine ⟨history, fun a member => ?_, fun a reachable => ?_⟩
  · obtain ⟨allocated, sized⟩ := laid.live shape large member
    exact only'.preserved heap allocated sized
  · obtain ⟨allocated, -⟩ := laid.live shape large reachable.live
    rw [sim'.isMarked clear heap' (only.allocated heap allocated).mem_objects, decide_eq_true_iff]
    refine inv.reachable (reachable.wordGraph laid shape large only
      (fun a member => (ok.located member).words.2) fun region isRoot => ?_)
    rw [registered, frame.2]
    exact List.mem_append_left _ (List.mem_reverse.mpr isRoot)

theorem Preserved.mono {written w : Nat → Prop} (preserved : Preserved written g g' a)
    (more : ∀ word, written word → w word) : Preserved w g g' a :=
  ⟨preserved.size, preserved.atomic, fun word points away =>
    preserved.payload word points fun wrote => away (more word wrote)⟩

theorem NoFlag.before (flags : FlagsUp g.history g'.history) (clear : NoFlag g') : NoFlag g := by
  refine ⟨Bool.eq_false_iff.mpr fun set => ?_, Bool.eq_false_iff.mpr fun set => ?_⟩
  · exact absurd (flags.staleNext set) (by rw [clear.1]; simp)
  · exact absurd (flags.shortLimit set) (by rw [clear.2]; simp)

/-- `GC_collect_once` keeps what is reachable, and keeps it as it is. -/
theorem HeapOk.collectOnce_keeps (ok : HeapOk setup g)
    (success : Source.collectOnce setup.env g = .ok g') (clear : NoFlag g') :
    (∀ a, Reachable g (g.rootScript.headD []) a → a ∈ g'.history.live) ∧
    ∀ a ∈ g'.history.live, a ∈ g.history.live ∧
      Preserved (FinalizerWrites setup.env g g') g g' a := by
  rw [Source.collectOnce] at success
  obtain ⟨swept, collecting, rest⟩ := bind_eq_ok.mp success
  obtain ⟨last, resetting, done⟩ := bind_eq_ok.mp rest
  obtain ⟨list, rooted, marked, finalized, list', unmarking, rooting, marking, finalizing, sweeping,
    rfl⟩ := collect_phases collecting
  have ok₁ : HeapOk setup (setCollecting g true) := ok.congr rfl rfl rfl rfl rfl (.refl _)
  obtain ⟨history, kept, reached⟩ := ok₁.marks unmarking rooting marking
  obtain ⟨chunks, large⟩ := ok.large
  have counted := ok.small.walkable.marked rooting marking
  have large' := (large.marked unmarking rooting marking).finalizeObjects finalizing
  have final := Finalized.finalizeObjects counted finalizing
  have live : finalized.history.live = g.history.live :=
    final.live.trans (congrArg History.live history)
  have same := (Untouched.resets _ resetting).toSameObjects
  have flags : FlagsAbove (Collector.noteSweep finalized).history last := by
    have start : FlagsAbove (Collector.noteSweep finalized).history (Collector.withChunkList
        (GlobalAllocator.recycleBlocks (Collector.noteSweep finalized)) list') := by
      obtain ⟨memory, block, free, recyclable, recycled⟩ :=
        recycleBlocks_frame (Collector.noteSweep finalized)
      rw [recycled]
      exact .refl _
    exact foldlM_keeps _ start (fun _ _ _ _ up ran => up.reset FlagsUp.feeds_noCollect ran) resetting
  rw [← Except.ok.inj done] at clear ⊢
  have fits : (Collector.noteSweep finalized).history.shortLimit = false :=
    Bool.eq_false_iff.mpr fun set =>
      absurd (flags.shortLimit set) (by rw [show last.history.shortLimit = false from clear.2]; simp)
  have survivors : last.history.live = finalized.history.live.filter fun a => finalized.isMarked a.object := by
    rw [same.live]
    obtain ⟨memory, block, free, recyclable, recycled⟩ :=
      recycleBlocks_frame (Collector.noteSweep finalized)
    rw [recycled]
    rfl
  have marks : ∀ a ∈ g.history.live, finalized.isMarked a.object = marked.isMarked a.object :=
    fun a member => (final.preserved counted.shape (history ▸ member)).2
  have sweeps : FlagsUp finalized.history (Collector.noteSweep finalized).history :=
    ⟨id, fun set => by simp [Collector.noteSweep, set], fun set => by simp [Collector.noteSweep, set],
      Nat.le_refl _, List.prefix_rfl⟩
  have writes : ∀ word, FinalizerWrites setup.env
      { marked with global := marked.global.resetCounters } finalized word →
      FinalizerWrites setup.env g (setCollecting last false) word := fun word writes =>
    (writes.later final.flags (sweeps.trans flags)).earlier (history ▸ .refl _)
  refine ⟨fun a reachable => ?_, fun a member => ?_⟩
  · show a ∈ last.history.live
    rw [survivors, List.mem_filter, live, marks a reachable.live]
    exact ⟨reachable.live, reached a reachable.collecting⟩
  · have member : a ∈ last.history.live := member
    rw [survivors, List.mem_filter] at member
    have old : a ∈ g.history.live := live ▸ member.1
    refine ⟨old, ?_⟩
    have entered : Preserved (fun _ => False) g (setCollecting g true) a := .of_same rfl rfl ⟨rfl, rfl⟩
    have counts : Preserved (fun _ => False) marked
        { marked with global := marked.global.resetCounters } a := .of_same rfl rfl ⟨rfl, rfl⟩
    have first := ((entered.trans (kept a old)).trans counts).mono
      (w := FinalizerWrites setup.env g (setCollecting last false)) fun _ none => none.elim
    have second := (final.preserved counted.shape (history ▸ old)).1.mono
      (w := FinalizerWrites setup.env g (setCollecting last false)) writes
    have third : Preserved (FinalizerWrites setup.env g (setCollecting last false)) finalized _ a :=
      final.marking.sweep_preserved large' fits sweeping member.1 member.2
    exact ((first.trans second).trans third).trans
      ((same.preserved _ a).trans (.of_same rfl rfl ⟨rfl, rfl⟩))

end Collections

section Runs
variable {env : Env} {smallMap largeMap memoryLimit freeSpaceDivisor initialSize self : Nat}
  {memory : Memory} {contents : LocalAllocator} {start g g' : Gc}

end Runs
end ImmixGc.Guarantees
