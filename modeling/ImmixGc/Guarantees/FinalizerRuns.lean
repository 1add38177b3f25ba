import ImmixGc.Guarantees.FinalizerAccounts

/-!
# Finalizers over whole runs

The finalizer of an object is called when the object goes, in a collection or in a call of
`GC_free`, and at no other time.
-/
namespace ImmixGc.Guarantees
open Source Foundation

/-! ## The finalizer phase -/

section Finalizing
variable {setup : Setup} {env : Env} {g g' : Gc}

theorem HeapOk.headersApart (ok : HeapOk setup g) :
    HeadersApart g.history := by
  intro a ha b hb same
  by_contra different
  have apart := ok.small.shape.apart.forall ha hb different
  have least := (ok.located ha).header.1
  have least' := (ok.located hb).header.1
  simp only [ShareNothing, sizeofObject] at apart least least'
  omega

/-- A finalizer that only writes leaves a line in the history. -/
theorem callFinalizer_history (stores : StoresOnly env) {callback object : Nat}
    (success : Collector.callFinalizer env callback object g = .ok g') :
    g'.history = g.history.call object callback ∧ g'.global = g.global := by
  rw [Collector.callFinalizer] at success
  refine @foldlM_keeps _ _ _ (fun last => last.history = g.history.call object callback ∧
    last.global = g.global) _ _ _ ⟨rfl, rfl⟩ (fun action member before after same ran => ?_) success
  obtain ⟨address, value, rfl⟩ := stores _ _ _ member
  rw [Collector.runAction, Gc.clientStore] at ran
  split at ran
  · exact Except.ok.inj ran ▸ same
  · cases ran

/-- What the calls of a loop over the table note down. -/
def notes (h : History) (calls : List (Nat × Nat × Bool)) : List (Nat × Nat) :=
  (calls.filter fun call => call.2.2).map fun call => (h.serialOf call.1, call.2.1)

/-- The loop calls the finalizers of the objects that are not marked. -/
theorem calls_finalizers {before after : Gc} {calls : List (Nat × Nat × Bool)}
    (stores : calls ≠ [] → StoresOnly setup.env)
    (called : Calls (Collector.finalizeObjectCallback setup.env) before calls after)
    (shape : HeapShape setup g) (finalized : Finalized setup g before)
    (own : ∀ call ∈ calls, ∃ a ∈ g.history.live, a.object = call.1) :
    (∀ call ∈ calls, call.2.2 = !g.isMarked call.1) ∧ ∃ log,
      after.history = { before.history with
        called := before.history.called ++ notes before.history calls
        finalizerCalls := log } := by
  induction called with
  | none state =>
    exact ⟨fun _ none => absurd none List.not_mem_nil, state.history.finalizerCalls, by simp [notes]⟩
  | @call state next final key value removed rest answer others ih =>
    have writes := stores (List.cons_ne_nil _ _)
    obtain ⟨a, member, here⟩ := own _ List.mem_cons_self
    dsimp only at here
    subst here
    have marked := (finalized.preserved shape member).2
    have owned : ∀ call ∈ rest, ∃ a ∈ g.history.live, a.object = call.1 := fun call member =>
      own call (List.mem_cons_of_mem _ member)
    rw [Collector.finalizeObjectCallback] at answer
    split at answer
    · next unmarked =>
      obtain ⟨ran, running, done⟩ := bind_eq_ok.mp answer
      simp only [Except.ok.injEq, Prod.mk.injEq] at done
      obtain ⟨rfl, rfl⟩ := done
      obtain ⟨agree, log, history⟩ := ih (fun _ => writes) (finalized.callFinalizer writes running)
        owned
      obtain ⟨noted, -⟩ := callFinalizer_history writes running
      refine ⟨fun call member => ?_, log, ?_⟩
      · rcases List.mem_cons.mp member with rfl | later
        · rw [← marked, unmarked]
          rfl
        · exact agree call later
      · rw [history, noted]
        simp [notes, History.call, History.serialOf]
    · next kept =>
      simp only [Except.ok.injEq, Prod.mk.injEq] at answer
      obtain ⟨rfl, rfl⟩ := answer
      obtain ⟨agree, log, history⟩ := ih (fun _ => writes) finalized owned
      refine ⟨fun call member => ?_, log, ?_⟩
      · rcases List.mem_cons.mp member with rfl | later
        · rw [← marked, eq_true_of_ne_false kept]
          rfl
        · exact agree call later
      · rw [history]
        simp [notes]

theorem mem_notes {h : History} (apart : HeadersApart h) {calls : List (Nat × Nat × Bool)}
    (own : ∀ call ∈ calls, ∃ a ∈ h.live, a.object = call.1) {r : Nat × Nat} :
    r ∈ notes h calls ↔ ∃ a ∈ h.live, (a.object, r.2, true) ∈ calls ∧ a.serial = r.1 := by
  simp only [notes, List.mem_map, List.mem_filter]
  constructor
  · rintro ⟨⟨key, value, removed⟩, ⟨member, rfl⟩, rfl⟩
    obtain ⟨a, live, here⟩ := own _ member
    dsimp only at here ⊢
    subst here
    exact ⟨a, live, member, (apart.serialOf live).symm⟩
  · rintro ⟨a, live, member, serial⟩
    exact ⟨_, ⟨member, rfl⟩, Prod.ext ((apart.serialOf live).trans serial) rfl⟩

theorem notes_nodup {h : History} (apart : HeadersApart h)
    (distinct : (h.live.map Allocation.serial).Nodup) {calls : List (Nat × Nat × Bool)}
    (own : ∀ call ∈ calls, ∃ a ∈ h.live, a.object = call.1) (once : (calls.map Prod.fst).Nodup) :
    (notes h calls).Nodup := by
  refine List.Nodup.map_on (fun call member other member' same => ?_)
    (once.of_map.sublist List.filter_sublist)
  obtain ⟨a, live, here⟩ := own call (List.mem_filter.mp member).1
  obtain ⟨b, live', here'⟩ := own other (List.mem_filter.mp member').1
  have serials := congrArg Prod.fst same
  dsimp only at serials
  rw [← here, ← here', apart.serialOf live, apart.serialOf live'] at serials
  refine List.inj_on_of_nodup_map once (List.mem_filter.mp member).1 (List.mem_filter.mp member').1 ?_
  rw [← here, ← here', List.inj_on_of_nodup_map distinct live live' serials]

/-- The finalizer phase calls the finalizers owed by objects without a mark, each once, and
takes them out of the table. -/
theorem finalizeObjects_ok (marking : Marking setup g)
    (accounted : Accounted g.global.finalizers g.history)
    (success : Collector.finalizeObjects setup.env g = .ok g') :
    ∃ calls map', (calls.map Prod.fst).Nodup ∧
      (∀ key value removed, (key, value, removed) ∈ calls ↔
        Owes g.history key value ∧ removed = !g.isMarked key) ∧
      (∃ log, g'.history = { g.history with
        called := g.history.called ++ notes g.history calls
        finalizerCalls := log }) ∧
      WellFormed g'.global.finalizers ∧ Represents g'.global.finalizers map' ∧
      ∀ key value, map' key = some value ↔ Owes g.history key value ∧ g.isMarked key = true := by
  obtain ⟨wellFormed, ⟨map, represents, pending⟩, -⟩ := accounted
  rw [Collector.finalizeObjects] at success
  obtain ⟨⟨finalizers, last⟩, deleting, done⟩ := bind_eq_ok.mp success
  rw [Hash.deleteIf] at deleting
  obtain ⟨⟨swept, final⟩, looping, clearing⟩ := bind_eq_ok.mp deleting
  obtain ⟨cleared, clear, same⟩ := bind_eq_ok.mp clearing
  simp only [Except.ok.injEq, Prod.mk.injEq] at same
  obtain ⟨rfl, rfl⟩ := same
  obtain ⟨calls, called, visited, swept', rest⟩ := deleteIfLoop_spec _ _ _ _ _ _ wellFormed
    represents (by omega) looping
  have table : WellFormed cleared ∧ Represents cleared (afterCalls map calls) := by
    rcases clearTombstones_spec swept' rest with ⟨table, ran, spec⟩ | failed
    · rwa [Except.ok.inj (clear.symm.trans ran)]
    · rw [failed] at clear
      cases clear
  obtain ⟨once, covers⟩ := calls_cover wellFormed represents visited
  have mapped : ∀ {key value removed}, (key, value, removed) ∈ calls → map key = some value :=
    fun member => (covers _ _).mpr ⟨_, member⟩
  have stores : calls ≠ [] → StoresOnly setup.env := fun some => by
    refine marking.shape.finalizers.resolve_right fun empty => ?_
    obtain ⟨call, member⟩ := List.exists_mem_of_ne_nil calls some
    rcases create_spec 8 with ⟨created, creates, -, none⟩ | failed
    · rw [← Except.ok.inj (empty.symm.trans creates)] at none
      have wrong := (none _ _).mpr ((represents _ _).mp (mapped member))
      cases wrong
    · rw [failed] at empty
      cases empty
  obtain ⟨agree, history⟩ := calls_finalizers stores called marking.shape (.refl marking)
    fun call member => ((pending _ _).mp (mapped member)).imp fun _ owes => ⟨owes.1, owes.2.1⟩
  have decided : ∀ key value removed, (key, value, removed) ∈ calls ↔
      Owes g.history key value ∧ removed = !g.isMarked key := by
    intro key value removed
    rw [← pending, covers]
    constructor
    · exact fun member => ⟨⟨removed, member⟩, agree _ member⟩
    · rintro ⟨⟨other, member⟩, rfl⟩
      exact agree _ member ▸ member
  refine ⟨calls, afterCalls map calls, once, decided, ?_⟩
  rw [← Except.ok.inj done]
  refine ⟨history, table.1, table.2, fun key value => ?_⟩
  rw [afterCalls_some (fun _ _ _ => mapped) once, decided, pending, not_and]
  constructor
  · rintro ⟨owes, stays⟩
    exact ⟨owes, by simpa using stays owes⟩
  · rintro ⟨owes, marked⟩
    exact ⟨owes, fun _ => by simp [marked]⟩

/-- The finalizer phase settles what the objects without a mark owe. -/
theorem Accounted.finalizeObjects (marking : Marking setup g) (apart : HeadersApart g.history)
    (accounted : Accounted g.global.finalizers g.history)
    (success : Collector.finalizeObjects setup.env g = .ok g') :
    Accounted g'.global.finalizers (g'.history.retained g'.isMarked) := by
  have marks : ∀ a ∈ g.history.live, g'.isMarked a.object = g.isMarked a.object := fun a member =>
    ((Finalized.finalizeObjects marking success).preserved marking.shape member).2
  obtain ⟨calls, map', once, decided, ⟨log, history⟩, wellFormed, represents, left⟩ :=
    finalizeObjects_ok marking accounted success
  have own : ∀ call ∈ calls, ∃ a ∈ g.history.live, a.object = call.1 := fun call member =>
    ((decided _ _ _).mp member).1.imp fun _ owes => ⟨owes.1, owes.2.1⟩
  have live : (g'.history.retained g'.isMarked).live =
      g.history.live.filter fun a => g.isMarked a.object := by
    rw [History.retained, history]
    exact List.filter_congr marks
  refine accounted.drop g.isMarked _ wellFormed live (by rw [History.retained, history])
    (by rw [History.retained, history]) (congrArg History.called history)
    (notes_nodup apart accounted.serials own once) (fun r => ?_) represents left
  rw [mem_notes apart own]
  constructor
  · rintro ⟨a, member, call, serial⟩
    obtain ⟨⟨b, member', here, owed⟩, unmarked⟩ := (decided _ _ _).mp call
    rw [apart b member' a member here, serial] at owed
    exact ⟨a, member, by simpa using unmarked.symm, Prod.ext serial rfl, owed⟩
  · rintro ⟨a, member, unmarked, same, owed⟩
    refine ⟨a, member, (decided _ _ _).mpr ⟨⟨a, member, rfl, same ▸ owed⟩, ?_⟩, congrArg Prod.fst same⟩
    rw [unmarked]
    rfl

theorem finalizers_markingKeeps (table : Hash) :
    MarkingKeeps fun g => g.global.finalizers = table where
  chunks _ _ same _ := same
  roots _ _ same := same
  script _ _ same := same
  find g g' pointer same _ success := by
    rcases findAndMark_cases success with rfl | ⟨i, object, -, -, rfl⟩
    · exact same
    · rw [Collector.scanObject]
      split <;> exact same

/-- The mark loop ends with an empty stack. -/
theorem mark_roots (fuel : Nat) (success : Collector.mark env fuel g = .ok g') :
    g'.collector.roots = [] := by
  induction fuel generalizing g with
  | zero => cases success
  | succ fuel ih =>
    rw [Collector.mark] at success
    split at success
    · next empty => exact Except.ok.inj success ▸ empty
    · obtain ⟨next, -, others⟩ := bind_eq_ok.mp success
      exact ih others

/-- A collection, as the finalizers see it: `marked` is the state before they are called, `swept`
that before the allocators are reset. -/
structure Finalizes (setup : Setup) (g marked finalized swept g' : Gc) : Prop where
  marking : Marking setup marked
  history : marked.history = g.history
  finalizers : marked.global.finalizers = g.global.finalizers
  roots : marked.collector.roots = []
  finalizing : Collector.finalizeObjects setup.env marked = .ok finalized
  table : swept.global.finalizers = finalized.global.finalizers
  collector : swept.collector = finalized.collector
  noted : swept.history = (Collector.noteSweep finalized).history
  resets : Untouched swept g'

theorem HeapOk.collectOnce_finalizes (ok : HeapOk setup g)
    (success : Source.collectOnce setup.env g = .ok g') :
    ∃ marked finalized swept, Finalizes setup g marked finalized swept g' := by
  rw [Source.collectOnce] at success
  obtain ⟨swept, collecting, rest⟩ := bind_eq_ok.mp success
  obtain ⟨last, resetting, done⟩ := bind_eq_ok.mp rest
  obtain ⟨list, rooted, marked, finalized, list', unmarking, rooting, marking, finalizing, -, rfl⟩ :=
    collect_phases collecting
  have ok₁ : HeapOk setup (setCollecting g true) := ok.congr rfl rfl rfl rfl rfl (.refl _)
  obtain ⟨history, -⟩ := ok₁.marks unmarking rooting marking
  have counted := ok.small.walkable.marked rooting marking
  have table : marked.global.finalizers = g.global.finalizers := by
    obtain ⟨memory, block, same⟩ := unmarkSmallObjects_frame (setCollecting g true)
    rw [same] at rooting
    have keeps := finalizers_markingKeeps g.global.finalizers
    have start := keeps.callCollectCallback (by rfl) rooting
    exact keeps.mark _ start marking
  have roots := mark_roots _ marking
  obtain ⟨memory, block, free, recyclable, same⟩ := recycleBlocks_frame (Collector.noteSweep finalized)
  rw [same] at resetting
  rw [← Except.ok.inj done]
  refine ⟨_, finalized, _, counted, history, table, roots, finalizing, ?_, ?_, ?_,
    (Untouched.resets _ resetting).trans ?_⟩
  · rfl
  · rfl
  · rfl
  · exact ⟨⟨rfl, rfl, ⟨rfl, rfl⟩, rfl, rfl⟩, rfl, rfl, rfl, rfl⟩

end Finalizing

/-! ## Calls -/

/-- The invariant of runs. -/
def Settles (g : Gc) : Prop := OnePerObject g.history → Accounted g.global.finalizers g.history

section Calls
variable {setup : Setup} {g g' : Gc}

/-- The finalizer phase registers nothing. -/
theorem finalizeObjects_registered (finalizers : StoresOnly setup.env ∨
      Hash.create 8 = .ok g.global.finalizers)
    (success : Collector.finalizeObjects setup.env g = .ok g') :
    g'.history.registered = g.history.registered := by
  rcases finalizers with stores | empty
  · refine @finalizeObjects_keeps _ (fun last => last.history.registered = g.history.registered)
      _ _ (fun _ _ same => same) (fun _ _ _ _ same called => ?_) rfl success
    rw [(callFinalizer_history stores called).1, ← same]
    rfl
  · rw [finalizeObjects_empty setup.env empty] at success
    rw [Except.ok.inj success]

theorem HeapOk.collectOnce_registered (ok : HeapOk setup g)
    (success : Source.collectOnce setup.env g = .ok g') :
    g'.history.registered = g.history.registered := by
  obtain ⟨marked, finalized, swept, phases⟩ := ok.collectOnce_finalizes success
  have kept := finalizeObjects_registered phases.marking.shape.finalizers phases.finalizing
  rw [phases.resets.registered, phases.noted, ← phases.history, ← kept]
  rfl

/-- A collection keeps the account. -/
theorem HeapOk.collectOnce_accounted (ok : HeapOk setup g)
    (accounted : Accounted g.global.finalizers g.history)
    (success : Source.collectOnce setup.env g = .ok g') :
    Accounted g'.global.finalizers g'.history := by
  obtain ⟨marked, finalized, swept, phases⟩ := ok.collectOnce_finalizes success
  rw [← phases.history, ← phases.finalizers] at accounted
  have apart : HeadersApart marked.history := phases.history ▸ ok.headersApart
  have settled : Accounted _ (Collector.noteSweep finalized).history :=
    (accounted.finalizeObjects phases.marking apart phases.finalizing).congr rfl rfl rfl rfl
  rw [← phases.noted] at settled
  have same := phases.resets
  rw [same.finalizers, phases.table]
  exact settled.congr same.live same.serials same.registered same.called

theorem Settles.stepsKeep (env : Env) : StepsKeep env Settles where
  extended _ _ settles _ extended one := by
    have before : OnePerObject _ := ⟨extended.registered ▸ one.one, extended.registered ▸ one.set⟩
    exact (settles before).extended extended
  collected ok _ here settles success _ one := by
    subst here
    have same := ok.collectOnce_registered success
    have before : OnePerObject _ := ⟨same ▸ one.one, same ▸ one.set⟩
    exact ok.collectOnce_accounted (settles before) success

theorem registered_stepsKeep (env : Env) (registered : List (Nat × Nat)) :
    StepsKeep env fun g => g.history.registered = registered where
  extended _ _ same _ extended := extended.registered.trans same
  collected ok _ here same success _ := by
    subst here
    exact (ok.collectOnce_registered success).trans same

/-- What stays registered: notes move, and new ones come last. -/
theorem OnePerObject.of_transfer {h : History} {old new : Nat}
    (one : OnePerObject (h.transfer old new)) : OnePerObject h := by
  obtain ⟨once, set⟩ := one
  refine ⟨?_, fun r member => ?_⟩
  · have moved : (h.transfer old new).registered.map Prod.fst =
        (h.registered.map Prod.fst).map fun serial =>
          if serial = h.serialOf old then h.serialOf new else serial := by
      simp only [History.transfer, List.map_map]
      refine List.map_congr_left fun r _ => ?_
      dsimp only [Function.comp]
      split <;> rfl
    rw [moved] at once
    exact once.of_map
  · have moved := set _ (List.mem_map_of_mem member)
    split at moved <;> exact moved

theorem OnePerObject.of_register {h : History} {object callback : Nat}
    (one : OnePerObject (h.register object callback)) : OnePerObject h := by
  obtain ⟨once, set⟩ := one
  rw [History.register, List.map_append] at once
  exact ⟨once.of_append_left, fun r member => set r (List.mem_append_left _ member)⟩

namespace HeapOk

theorem settles_registerFinalizer (ok : HeapOk setup g) (settles : Settles g)
    {pointer callback : Nat} (held : HeldPointer g pointer)
    (success : Source.registerFinalizer pointer callback g = .ok g') : Settles g' := by
  obtain ⟨a, member, rfl⟩ := held
  have header : Object.mutatorAddress a.object - sizeofObject = a.object := Nat.add_sub_cancel ..
  rw [Source.registerFinalizer, header] at success
  obtain ⟨registered, registering, done⟩ := bind_eq_ok.mp success
  rw [GlobalAllocator.registerFinalizer] at registering
  obtain ⟨table, inserted, rest⟩ := bind_eq_ok.mp registering
  rw [← Except.ok.inj done, ← Except.ok.inj rest]
  exact fun one => (settles one.of_register).register ok.headersApart member one inserted

theorem settles_free (ok : HeapOk setup g) (settles : Settles g) {pointer : Nat}
    (success : Source.free setup.env pointer g = .ok g') :
    Settles g' ∧ g'.history.registered = g.history.registered := by
  obtain rfl | ⟨finalizer, deleted, called, release⟩ := free_cases success
  · exact ⟨settles, rfl⟩
  obtain ⟨-, quiet⟩ := ok.deleteFinalizer release.deleting
  obtain ⟨table, removed, rfl⟩ := deleteFinalizer_ok release.deleting
  have calls := release.calling
  rw [release.freed]
  clear release
  generalize pointer - sizeofChunk = chunk at *
  have noted : called.history = (if finalizer ≠ null then
      g.history.call (chunk + chunkHeaderSize) finalizer else g.history) ∧
      called.global.finalizers = table := by
    obtain ⟨none, rfl⟩ | ⟨some, calling⟩ := calls
    · exact ⟨(if_neg (Classical.not_not.mpr none)).symm, rfl⟩
    · obtain ⟨history, global⟩ := callFinalizer_history (quiet.resolve_left some) calling
      exact ⟨by rw [history, if_pos some], by rw [global]⟩
  have same : called.history.registered = g.history.registered := by
    rw [noted.1]
    split <;> rfl
  refine ⟨fun one => ?_, same⟩
  have before : OnePerObject g.history := ⟨same ▸ one.one, same ▸ one.set⟩
  have released := (settles before).release ok.headersApart before removed
  rw [← noted.1, ← noted.2] at released
  exact released

end HeapOk

theorem Moved.settles {pointer size newPointer count : Nat} {allocated moved : Gc}
    (move : Moved setup.env pointer size newPointer count g allocated moved g')
    (ok : HeapOk setup allocated) (settles : Settles allocated) {new : Allocation}
    (member : new ∈ allocated.history.live) (address : newPointer = Object.mutatorAddress new.object)
    (fresh : OnePerObject allocated.history →
      ∀ r ∈ allocated.history.registered, r.1 ≠ new.serial) :
    Settles moved ∧ (OnePerObject moved.history → OnePerObject allocated.history) := by
  obtain ⟨finalizer, deleted, deleting, moving⟩ := move.moving
  obtain ⟨table, removed, rfl⟩ := deleteFinalizer_ok deleting
  have header : newPointer - sizeofObject = new.object := by
    rw [address]
    exact Nat.add_sub_cancel ..
  rw [Source.moveFinalizer, header] at moving
  split at moving
  · next some =>
    obtain ⟨registered, registering, done⟩ := bind_eq_ok.mp moving
    rw [GlobalAllocator.registerFinalizer] at registering
    obtain ⟨table', inserted, rest⟩ := bind_eq_ok.mp registering
    rw [← Except.ok.inj done, ← Except.ok.inj rest]
    refine ⟨fun one => ?_, .of_transfer⟩
    have before := one.of_transfer
    exact (settles before).transfer ok.headersApart before member (fresh before) removed some inserted
  · next none =>
    rw [Classical.not_not] at none
    subst none
    rw [← Except.ok.inj moving]
    exact ⟨fun one => (settles one).missed one removed, id⟩

theorem HeapOk.settles_realloc (ok : HeapOk setup g) (settles : Settles g)
    (registered : g.current ∈ setup.registered) {pointer size newPointer : Nat}
    (bound : size ≤ 2 ^ 64 - 24)
    (success : Source.realloc setup.env pointer size g = .ok (newPointer, g')) (clear : NoFlag g') :
    Settles g' := by
  have start : Tracked setup Settles g g := .refl (Or.inr ok) fun _ => settles
  have unchanged : Tracked setup (fun last => last.history.registered = g.history.registered) g g :=
    .refl (Or.inr ok) fun _ => rfl
  have keeps := Settles.stepsKeep setup.env
  obtain allocating | freeing | rfl | ⟨count, allocated, moved, move⟩ := realloc_cases success
  · exact ((start.malloc keeps registered bound allocating).1.kept clear).2
  · exact (ok.settles_free settles freeing).1
  · exact settles
  obtain ⟨atomic, allocating⟩ := move.allocating
  have clear' : NoFlag allocated :=
    (clear.before ((FlagsUp.refl _).free move.freeing)).before move.flags
  obtain ⟨kept, out⟩ := start.malloc keeps registered bound allocating
  obtain ⟨ok', settles'⟩ := kept.kept clear'
  obtain ⟨newest, handedOut⟩ := out clear'
  have same := (unchanged.malloc (registered_stepsKeep _ _) registered bound allocating).1.kept clear'
  obtain ⟨new, older, live, address, -⟩ := id handedOut
  have fresh : OnePerObject allocated.history →
      ∀ r ∈ allocated.history.registered, r.1 ≠ new.serial := by
    intro one r member
    have before : OnePerObject g.history := ⟨same.2 ▸ one.one, same.2 ▸ one.set⟩
    have known := (settles before).known r (same.2 ▸ member)
    exact Nat.ne_of_lt (known.trans_le (newest new older live).1)
  have moves := move.settles ok' settles' (live ▸ List.mem_cons_self) address fresh
  exact ((move.ok ok' handedOut).settles_free moves.1 move.freeing).1

end Calls

/-! ## Runs -/

section Runs
variable {env : Env} {smallMap largeMap memoryLimit freeSpaceDivisor initialSize self : Nat}
  {memory : Memory} {contents : LocalAllocator} {start g₀ g g' : Gc}

theorem Settles.runKeeps (env : Env) : RunKeeps env (fun _ _ => True) Settles where
  toStepsKeep := Settles.stepsKeep env
  freed ok here settles success := by
    subst here
    exact (ok.settles_free settles success).1
  reallocated ok here settles registered bound success clear := by
    subst here
    exact ok.settles_realloc settles registered bound success clear
  registered ok settles held success := ok.settles_registerFinalizer settles held success
  stored ok settles success _ := by
    rw [(ok.small.shape.owned_cases success).1]
    exact settles
  framed settles _ global history _ := by
    rw [Settles, global, history]
    exact settles

/-- Nothing is registered at the start. -/
theorem Settles.begins (history : g.history = History.empty)
    (created : Hash.create 8 = .ok g.global.finalizers) : Settles g := by
  intro _
  rcases create_spec 8 with ⟨table, creates, wellFormed, represents⟩ | failed
  · rw [Except.ok.inj (created.symm.trans creates), history]
    refine ⟨wellFormed, ⟨_, represents, fun object callback => ?_⟩, .nothing _, List.nodup_nil,
      fun _ member => absurd member List.not_mem_nil,
      fun _ member => absurd member List.not_mem_nil⟩
    simp [Owes, History.empty]
  · rw [failed] at created
    cases created

end Runs
end ImmixGc.Guarantees
