import ImmixGc.Guarantees.HeapInvariants

/-!
# Nobody else writes an object

Whatever threads allocate, move, free and collect in between, an object that is live at both
ends of a run has at its end the size, the atomic flag and the data it had: only the client's
own writes and those of finalizers change its words.
-/
namespace ImmixGc.Guarantees
open Source Foundation

/-- What two states have in common. An object that is live in the second was live in the first
and is as it was, but for words in `written` and those that the finalizers called in between
write, or was allocated in between. -/
structure Since (env : Env) (written : Nat → Prop) (g g' : Gc) : Prop where
  flags : FlagsUp g.history g'.history
  live : ∀ a ∈ g'.history.live,
    a ∈ g.history.live ∧ Preserved (fun word => written word ∨ FinalizerWrites env g g' word) g g' a ∨
    g.history.serials ≤ a.serial ∧ a.serial < g'.history.serials

section Steps
variable {setup setup' : Setup} {env : Env} {written : Nat → Prop} {g₀ g g' g'' : Gc}

namespace Since

theorem trans (first : Since env written g g') (second : Since env written g' g'') :
    Since env written g g'' := by
  refine ⟨first.flags.trans second.flags, fun a member => ?_⟩
  rcases second.live a member with ⟨kept, preserved⟩ | ⟨low, high⟩
  · rcases first.live a kept with ⟨old, before⟩ | ⟨low, high⟩
    · refine Or.inl ⟨old, (before.mono fun word => ?_).trans (preserved.mono fun word => ?_)⟩
      · exact Or.imp_right fun writes => writes.later first.flags second.flags
      · exact Or.imp_right fun writes => writes.earlier first.flags
    · exact Or.inr ⟨low, high.trans_le second.flags.serials⟩
  · exact Or.inr ⟨first.flags.serials.trans low, high⟩

theorem of_same (same : SameObjects g g') (flags : FlagsUp g.history g'.history) :
    Since env written g g' :=
  ⟨flags, fun a member => Or.inl ⟨same.live ▸ member, same.preserved _ a⟩⟩

theorem refl (g : Gc) : Since env written g g := .of_same (.refl g) (.refl _)

theorem of_extended (flags : FlagsUp g.history g'.history) (extended : Extended g g') :
    Since env written g g' := by
  refine ⟨flags, fun a member => ?_⟩
  have kept : a ∈ g.history.live →
      Preserved (fun word => written word ∨ FinalizerWrites env g g' word) g g' a := fun old =>
    (extended.kept a old).mono fun _ never => never.elim
  rcases extended.live with same | ⟨new, live, serial⟩
  · exact Or.inl ⟨same ▸ member, kept (same ▸ member)⟩
  · rw [live] at member
    rcases List.mem_cons.mp member with rfl | old
    · exact Or.inr serial
    · exact Or.inl ⟨old, kept old⟩

end Since

/-! ## Single steps -/

theorem SameObjects.deleteFinalizer {object finalizer : Nat}
    (success : GlobalAllocator.deleteFinalizer object g = .ok (finalizer, g')) : SameObjects g g' := by
  obtain ⟨table, -, rfl⟩ := deleteFinalizer_ok success
  exact ⟨rfl, rfl, ⟨rfl, rfl⟩, rfl, rfl⟩

theorem SameObjects.moveFinalizer {finalizer object newObject : Nat}
    (success : Source.moveFinalizer finalizer object newObject g = .ok g') : SameObjects g g' := by
  rw [Source.moveFinalizer] at success
  split at success
  · obtain ⟨registered, registering, done⟩ := bind_eq_ok.mp success
    rw [GlobalAllocator.registerFinalizer] at registering
    obtain ⟨table, -, rest⟩ := bind_eq_ok.mp registering
    rw [← Except.ok.inj done, ← Except.ok.inj rest]
    exact ⟨rfl, rfl, ⟨rfl, rfl⟩, rfl, rfl⟩
  · exact Except.ok.inj success ▸ refl g

namespace HeapOk

theorem since_freeLarge (ok : HeapOk setup g) (chunk : Nat) :
    Since env written g (GlobalAllocator.freeLarge chunk g) := by
  obtain ⟨chunks, large⟩ := ok.large
  refine ⟨⟨id, id, id, Nat.le_refl _, List.prefix_rfl⟩, fun a member => ?_⟩
  have old : a ∈ g.history.live := (List.mem_filter.mp member).1
  refine Or.inl ⟨old, large.preserved old (ok.located old).header.1 rfl (fun _ _ _ => rfl) fun c _ _ => ?_⟩
  dsimp only [GlobalAllocator.freeLarge]
  rw [store_apply]
  split
  · next here => rw [here]
  · rfl

/-- A write of the client is one to the payload of its object, or it changes nothing. -/
theorem preserved_clientStore (ok : HeapOk setup g) (written : Nat → Prop) {address value : Nat}
    (success : g.clientStore address value = .ok g')
    (allowed : written address ∨ value = g.memory.load address) :
    g'.history = g.history ∧ ∀ a ∈ g.history.live, Preserved written g g' a := by
  have stored := (ok.small.shape.owned_cases success).1
  refine ⟨by rw [stored], fun a old => ?_⟩
  refine .of_parts (by rw [stored]) (fun small word low high => ?_) (fun _ => by rw [stored])
    fun word _ away => ?_
  · rcases ok.small.shape.homes a old with home | inLarge
    · obtain ⟨layout, extent, intact⟩ := (ok.small.walkable.full _ home).intact
      exact ok.small.shape.store_header success old home intact low high
    · rw [inLarge.1] at small
      cases small
  · rw [stored]
    dsimp only [Memory.store, Memory.load]
    rw [store_apply]
    split
    · next here =>
      subst here
      exact allowed.resolve_left away
    · rfl

theorem since_clientStore (ok : HeapOk setup g) (since : Since env written g₀ g) {address value : Nat}
    (success : g.clientStore address value = .ok g')
    (allowed : (written address ∨ FinalizerWrites env g₀ g address) ∨
      value = g.memory.load address) : Since env written g₀ g' := by
  obtain ⟨history, kept⟩ := ok.preserved_clientStore
    (fun word => written word ∨ FinalizerWrites env g₀ g word) success allowed
  have later : FlagsUp g.history g'.history := history ▸ .refl _
  refine ⟨since.flags.trans later, fun a member => ?_⟩
  rw [history] at member ⊢
  refine (since.live a member).imp_left fun ⟨old, before⟩ => ⟨old, ?_⟩
  exact (before.trans (kept a member)).mono fun word =>
    Or.imp_right fun writes => writes.later since.flags later

/-- `memcpy` fills the newest object. -/
theorem since_copyWords (ok : HeapOk setup g) (since : Since env written g₀ g)
    (newest : NewestSince g₀ g) {target source count : Nat} {new : Allocation}
    {older : List Allocation} (live : g.history.live = new :: older)
    (start : target = Object.mutatorAddress new.object)
    (room : sizeofObject + count * wordSize ≤ new.size) :
    Since env written g₀ { g with memory := Source.copyWords g.memory target source count } := by
  refine ⟨since.flags, fun a member => ?_⟩
  by_cases same : a = new
  · rw [same]
    exact Or.inr (newest new older live)
  refine (since.live a member).imp_left (And.imp_right fun kept => kept.trans ?_)
  have apart := ok.small.shape.apart.forall member (live ▸ List.mem_cons_self) same
  obtain ⟨chunks, large⟩ := ok.large
  refine large.preserved member (ok.located member).header.1 rfl (fun word low high => ?_)
    fun _ _ _ => rfl
  refine copyWords_outside _ _ _ _ ?_
  simp only [ShareNothing, Object.mutatorAddress, sizeofObject, wordSize] at *
  omega

theorem since_collectOnce (ok : HeapOk setup g)
    (success : Source.collectOnce setup.env g = .ok g') (clear : NoFlag g') :
    Since setup.env written g g' := by
  have kept := (ok.collectOnce_keeps success clear).2
  refine ⟨(FlagsUp.refl _).collectOnce success, fun a member => ?_⟩
  exact Or.inl ⟨(kept a member).1, (kept a member).2.mono fun _ => Or.inr⟩

theorem since_callFinalizer (ok : HeapOk setup g) (stores : StoresOnly setup.env)
    {callback object : Nat}
    (success : Collector.callFinalizer setup.env callback object g = .ok g') :
    HeapOk setup g' ∧ Since setup.env written g g' := by
  have called : HeapOk setup { g with history := g.history.call object callback } :=
    ok.congr rfl rfl rfl rfl rfl ⟨List.Sublist.refl _, id⟩
  have noted : Since setup.env written g { g with history := g.history.call object callback } :=
    .of_same ⟨rfl, rfl, ⟨rfl, rfl⟩, rfl, rfl⟩ (.call _ _ _)
  rw [Collector.callFinalizer] at success
  refine (@foldlM_keeps _ _ _ (fun last => (HeapOk setup last ∧ Since setup.env written g last) ∧
      FlagsAbove (g.history.call object callback) last) _ _ _ ⟨⟨called, noted⟩, .refl _⟩
    (fun action member before after kept ran => ?_) success).1
  obtain ⟨⟨ok, since⟩, up⟩ := kept
  obtain ⟨address, value, rfl⟩ := stores _ _ _ member
  have own : FinalizerWrites setup.env g { g with
      history := g.history.call object callback } address :=
    ⟨(object, callback), by simp [finalizerCalls, History.call], value, member⟩
  have writes := own.later (.call _ _ _) up
  exact ⟨⟨ok.clientStore ran, ok.since_clientStore since ran (Or.inl (Or.inr writes))⟩,
    up.clientStore ran⟩

theorem since_free (ok : HeapOk setup g) {pointer : Nat}
    (success : Source.free setup.env pointer g = .ok g') : Since setup.env written g g' := by
  obtain rfl | ⟨finalizer, deleted, called, release⟩ := free_cases success
  · exact .refl _
  obtain ⟨kept, quiet⟩ := ok.deleteFinalizer release.deleting
  have same : Since setup.env written g deleted :=
    .of_same (.deleteFinalizer release.deleting) (.deleteFinalizer release.deleting)
  have after : HeapOk setup called ∧ Since setup.env written g called := by
    obtain ⟨-, rfl⟩ | ⟨some, calling⟩ := release.calling
    · exact ⟨kept, same⟩
    · obtain ⟨ok', since⟩ := kept.since_callFinalizer (quiet.resolve_left some) calling
      exact ⟨ok', same.trans since⟩
  rw [release.freed]
  exact after.2.trans (after.1.since_freeLarge _)

end HeapOk

theorem Since.stepsKeep (env : Env) (written : Nat → Prop) (g₀ : Gc) :
    StepsKeep env (Since env written g₀) where
  extended _ _ since flags extended := since.trans (.of_extended flags extended)
  collected ok _ here since success clear := by
    subst here
    exact since.trans (ok.since_collectOnce success clear)

theorem Since.registerFinalizer {pointer callback : Nat}
    (success : Source.registerFinalizer pointer callback g = .ok g') : Since env written g g' := by
  have flags := FlagsUp.registerFinalizer success
  rw [Source.registerFinalizer] at success
  obtain ⟨registered, registering, done⟩ := bind_eq_ok.mp success
  rw [GlobalAllocator.registerFinalizer] at registering
  obtain ⟨table, -, rest⟩ := bind_eq_ok.mp registering
  refine .of_same ?_ flags
  rw [← Except.ok.inj done, ← Except.ok.inj rest]
  exact ⟨rfl, rfl, ⟨rfl, rfl⟩, rfl, rfl⟩

theorem HeapOk.since_realloc
    (ok : HeapOk setup g) (registered : g.current ∈ setup.registered)
    {pointer size newPointer : Nat} (bound : size ≤ 2 ^ 64 - 24)
    (success : Source.realloc setup.env pointer size g = .ok (newPointer, g')) (clear : NoFlag g') :
    Since setup.env written g g' := by
  have keeps := Since.stepsKeep setup.env written g
  have start : Tracked setup (Since setup.env written g) g g := .refl (Or.inr ok) fun _ => .refl g
  obtain allocating | freeing | rfl | ⟨count, allocated, moved, move⟩ := realloc_cases success
  · exact ((start.malloc keeps registered bound allocating).1.kept clear).2
  · exact ok.since_free freeing
  · exact .refl _
  have before : NoFlag allocated :=
    (clear.before ((FlagsUp.refl _).free move.freeing)).before move.flags
  obtain ⟨atomic, allocating⟩ := move.allocating
  obtain ⟨kept, out⟩ := start.malloc keeps registered bound allocating
  obtain ⟨ok', since⟩ := kept.kept before
  obtain ⟨newest, handedOut⟩ := out before
  obtain ⟨new, older, live, address, enough⟩ := id handedOut
  have fewer := move.fewer
  have copied : Since setup.env written g { allocated with
      memory := Source.copyWords allocated.memory newPointer pointer count } :=
    ok'.since_copyWords since newest live address (by omega)
  obtain ⟨finalizer, deleted, deleting, moving⟩ := move.moving
  have same := (SameObjects.deleteFinalizer deleting).trans (.moveFinalizer moving)
  exact (copied.trans (.of_same same ((FlagsUp.deleteFinalizer deleting).moveFinalizer moving))).trans
    ((move.ok ok' handedOut).since_free move.freeing)

/-! ## Runs -/

/-- A write of the client to this word that does not write what is there. -/
def WritesWord (word : Nat) (g g' : Gc) : Prop :=
  ∃ value, g.clientStore word value = .ok g' ∧ value ≠ g.memory.load word

/-- The client writes new values into `written` only. -/
def WritesOnly (written : Nat → Prop) (g g' : Gc) : Prop :=
  ∀ word, WritesWord word g g' → written word

theorem Since.runKeeps (env : Env) (written : Nat → Prop) (g₀ : Gc) :
    RunKeeps env (WritesOnly written) (Since env written g₀) where
  toStepsKeep := Since.stepsKeep env written g₀
  freed ok here since success := by
    subst here
    exact since.trans (ok.since_free success)
  reallocated ok here since registered bound success clear := by
    subst here
    exact since.trans (ok.since_realloc registered bound success clear)
  registered _ since _ success := since.trans (.registerFinalizer success)
  stored {_ g _ address value} ok since success quiet := by
    refine ok.since_clientStore since success ?_
    by_cases same : value = g.memory.load address
    · exact Or.inr same
    · exact Or.inl (Or.inl (quiet address ⟨value, success, same⟩))
  framed since memory global history _ :=
    since.trans (.of_same ⟨memory, by rw [global], by simp only [global, and_self],
      by rw [history], by rw [history]⟩ (history ▸ .refl _))

end Steps

/-- A part of a run in which the client writes nothing new into a word. -/
inductive QuietRun (env : Env) (word : Nat) (before : Gc) : Gc → Prop where
  | refl : QuietRun env word before before
  | step {g g' : Gc} (run : QuietRun env word before g) (step : HeapStep env g g')
      (quiet : ¬ WritesWord word g g') : QuietRun env word before g'

section Runs
variable {env : Env} {smallMap largeMap memoryLimit freeSpaceDivisor initialSize self : Nat}
  {memory : Memory} {contents : LocalAllocator} {start g g' : Gc} {word : Nat}

/-- Every serial number in use has been given out. -/
theorem HeapRun.numbered (mapped : Mapped smallMap largeMap memoryLimit initialSize)
    (init : Source.init env smallMap largeMap memoryLimit freeSpaceDivisor initialSize memory self
      contents = .ok start) (run : HeapRun env start g) :
    NoFlag g → ∀ a ∈ g.history.live, a.serial < g.history.serials := by
  obtain ⟨g₀, ok, ready, history, -, -, thread⟩ := init_heapOk mapped init
  have keeps := Since.runKeeps env (fun _ => True) g₀
  have tracked : Tracked ⟨env, smallMap, largeMap, g.localAllocators⟩ (Since env (fun _ => True) g₀)
      g₀ g := by
    induction run with
    | init =>
      have before : Tracked ⟨env, smallMap, largeMap, []⟩ (Since env (fun _ => True) g₀) g₀ g₀ :=
        .refl (Or.inr ok) fun _ => .refl g₀
      have begun := before.initThread keeps.toStepsKeep List.not_mem_nil ready thread
      exact begun.step (.refl _) (fun whole => whole.current) fun _ _ since _ => since
    | step _ step ih => exact ih.heapStep keeps step fun _ _ => trivial
  intro clear a member
  rcases (tracked.kept clear).2.live a member with ⟨old, -⟩ | ⟨-, high⟩
  · rw [history] at old
    cases old
  · exact high

/-- The run lemma. -/
theorem QuietRun.tracked (run : QuietRun env word g g')
    (whole : Whole ⟨env, smallMap, largeMap, g.localAllocators⟩ g) :
    Tracked ⟨env, smallMap, largeMap, g'.localAllocators⟩
      (Since env (fun x => x ≠ word) g) g g' := by
  induction run with
  | refl => exact .refl whole fun _ => .refl g
  | step _ step quiet ih =>
    refine ih.heapStep (Since.runKeeps env _ g) step fun x writes => ?_
    rintro rfl
    exact quiet writes

end Runs
end ImmixGc.Guarantees
